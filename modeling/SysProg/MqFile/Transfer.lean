import SysProg.MqFile.Protocol

/-!
# The size that the client prints

A message has no length of its own: the client takes it as a string.  A chunk that begins
with a NUL looks like the last message; of any other chunk what is behind its first NUL
is not counted (`hidden`).  `server_res` is cleared after each message, but not before the
first one, so what it held is counted behind a first chunk without NULs (`surplus`).

* `receiveAll_messages` is what the client makes of chunks none of which begins with a NUL.
* `served_iff`: the client leaves with the server's last message and prints the size of the
  file, if and only if no chunk begins with a NUL, the size is an `int`, and there is as
  much in `surplus` as in `hidden` (`Exact`).
* `exact_of_clear` are the requests for which this is so without any coincidence, and
  `data_done` says that the server's buffer is cleared by the first file that is not empty;
  `exact_of_done` puts the two together.
-/

namespace SysProg.MqFile

open SysProg.Lib

variable {r : Request} {s t : State} {a : Op} {tr : List Op}

/-! ## Requests -/

/-- The client leaves its loop with the last message of the server, and prints the size of
the file. -/
structure Served (r : Request) : Prop where
  left : ∀ tr s, (transfer r).Run tr s → s.client = .left →
    s.server = .done ∧ s.mq_client = [] ∧ s.receive_byte_num = r.file.length
  stuck : ∀ tr s, (transfer r).Run tr s → (transfer r).Stuck s → s.client = .left
  bounded : ∃ n, ∀ tr s, (transfer r).Run tr s → tr.length ≤ n

theorem served_iff_receiveAll : Served r ↔
    receiveAll r.behind 0 0 (messages r.data r.chunks) = some ((r.file.length : Int), []) := by
  constructor
  · intro h
    obtain ⟨tr, s, hrun, hleft⟩ := exists_left r
    obtain ⟨hserver, hqueue, hnum⟩ := h.left tr s hrun hleft
    rw [← outcome_eq hrun, ← hnum]
    simp [outcome, hleft, hqueue, toCome_eq_nil_iff.mpr hserver]
  · intro h
    refine ⟨fun tr s hrun hleft ↦ ?_, fun _ _ ↦ left_of_stuck, ⟨_, fun tr s hrun ↦
      (Nat.le_add_right _ _).trans (length_add_work hrun).le⟩⟩
    rw [← outcome_eq hrun] at h
    simp only [outcome, hleft] at h
    obtain ⟨hnum, hrest⟩ := Prod.mk.inj (Option.some.inj h)
    obtain ⟨hqueue, hcome⟩ := List.append_eq_nil_iff.mp hrest
    exact ⟨toCome_eq_nil_iff.mp hcome, hqueue, hnum⟩

/-! ## Single messages -/

variable {c data behind : List UInt8}

theorem head?_overwrite (hne : c ≠ []) (hlen : c.length ≤ data.length) :
    (overwrite data 0 c).head? = c.head? := by
  rw [overwrite_chunk hlen]
  cases c with
  | nil => exact absurd rfl hne
  | cons b c => rfl

/-- Behind a chunk in a cleared buffer there is a NUL. -/
theorem cstring_clear (hlen : c.length ≤ MSG_SIZE - 1) (behind : List UInt8) :
    cstring (overwrite zeros 0 c ++ behind) = cstring c := by
  have hpos : 0 < MSG_SIZE := by decide
  have hzeros := length_zeros
  obtain ⟨k, hk⟩ := Nat.exists_eq_succ_of_ne_zero (show MSG_SIZE - c.length ≠ 0 by omega)
  rw [overwrite_chunk (by omega), zeros, List.drop_replicate, hk, List.replicate_succ,
    List.append_assoc]
  exact cstring_append_cons c _

/-- What the client does not count of a chunk. -/
def hidden (c : List UInt8) : Nat := c.length - (cstring c).length

/-- What it counts behind a chunk that has come into the buffer `data`. -/
def surplus (data behind c : List UInt8) : List UInt8 :=
  if 0 ∈ c then [] else cstring (data.drop c.length ++ behind)

theorem length_cstring_overwrite (hlen : c.length ≤ data.length) :
    (cstring (overwrite data 0 c ++ behind)).length =
      (cstring c).length + (surplus data behind c).length := by
  rw [overwrite_chunk hlen, List.append_assoc, surplus]
  split
  · next hmem => rw [cstring_append_of_mem hmem, List.length_nil, Nat.add_zero]
  · next hmem => rw [cstring_append hmem, List.length_append, cstring_of_notMem hmem]

/-! ## All messages -/

/-- The bytes that are counted of some chunks. -/
def counted (chunks : List (List UInt8)) : Nat := (chunks.map fun c ↦ (cstring c).length).sum

theorem counted_add_hidden (chunks : List (List UInt8)) :
    counted chunks + (chunks.map hidden).sum = chunks.flatten.length := by
  induction chunks with
  | nil => rfl
  | cons c chunks ih =>
      have hle := length_cstring_le c
      simp only [counted, List.map_cons, List.sum_cons, List.flatten_cons, List.length_append,
        hidden] at ih ⊢
      omega

variable {chunks : List (List UInt8)} {mem : Nat → List UInt8} {k : Nat}

theorem receiveAll_clear (hne : ∀ c ∈ chunks, c ≠ []) (hlen : ∀ c ∈ chunks, c.length ≤ MSG_SIZE - 1)
    (hbegins : ∀ c ∈ chunks, c.head? ≠ some 0) (n : Int) :
    receiveAll mem k (n.bmod (2 ^ 32)) (messages zeros chunks) =
      some ((n + counted chunks).bmod (2 ^ 32), []) := by
  induction chunks generalizing k n with
  | nil =>
      rw [counted, List.map_nil, List.sum_nil, Int.natCast_zero, Int.add_zero]
      exact receiveAll_nil length_zeros mem k _
  | cons c chunks ih =>
      obtain ⟨hne, hnes⟩ := List.forall_mem_cons.mp hne
      obtain ⟨hlen, hlens⟩ := List.forall_mem_cons.mp hlen
      obtain ⟨hbegin, hbegins⟩ := List.forall_mem_cons.mp hbegins
      have hhead : (overwrite zeros 0 c).head? = c.head? :=
        head?_overwrite hne (hlen.trans (length_zeros.symm ▸ Nat.sub_le _ _))
      have hcounted : (counted (c :: chunks) : Int) = (cstring c).length + counted chunks := by
        simp [counted]
      rw [messages, receiveAll, if_neg (hhead.symm ▸ hbegin), cstring_clear hlen, addInt,
        Int.bmod_add_bmod, ih hnes hlens hbegins, hcounted, Int.add_assoc]

/-- A chunk that begins with a NUL ends the loop, and there are messages behind it. -/
theorem begins_of_receiveAll (hne : ∀ c ∈ chunks, c ≠ [])
    (hlen : ∀ c ∈ chunks, c.length ≤ data.length) (hdata : data.length = MSG_SIZE) {n m : Int}
    (h : receiveAll mem k n (messages data chunks) = some (m, [])) :
    ∀ c ∈ chunks, c.head? ≠ some 0 := by
  induction chunks generalizing data k n with
  | nil => exact fun c hc ↦ absurd hc List.not_mem_nil
  | cons c chunks ih =>
      obtain ⟨hne, hnes⟩ := List.forall_mem_cons.mp hne
      obtain ⟨hle, hles⟩ := List.forall_mem_cons.mp hlen
      have hzeros : data.length = zeros.length := hdata.trans length_zeros.symm
      rw [messages, receiveAll, head?_overwrite hne hle] at h
      split at h
      · exact absurd (Prod.mk.inj (Option.some.inj h)).2 (messages_ne_nil _ _)
      · next hbegin =>
          exact List.forall_mem_cons.mpr ⟨hbegin, ih hnes (hzeros ▸ hles) length_zeros h⟩

/-! ## The size of the file -/

/-- What the client counts although it does not belong to the file. -/
def Request.surplus (r : Request) : List UInt8 :=
  match r.chunks with
  | [] => []
  | c :: _ => MqFile.surplus r.data (r.behind 0) c

theorem receiveAll_messages (hbegins : ∀ c ∈ r.chunks, c.head? ≠ some 0) :
    receiveAll r.behind 0 0 (messages r.data r.chunks) =
      some ((((counted r.chunks + r.surplus.length : Nat) : Int)).bmod (2 ^ 32), []) := by
  have hdata := r.length_data
  have hne := r.ne_nil
  have hlen := r.length_le
  rw [Request.surplus]
  cases hchunks : r.chunks with
  | nil =>
      rw [receiveAll_nil hdata]
      simp [counted]
  | cons c chunks =>
      rw [hchunks] at hne hlen hbegins
      obtain ⟨hne, hnes⟩ := List.forall_mem_cons.mp hne
      obtain ⟨hle, hles⟩ := List.forall_mem_cons.mp hlen
      obtain ⟨hbegin, hbegins⟩ := List.forall_mem_cons.mp hbegins
      have hfit : c.length ≤ r.data.length := by omega
      have hhead := head?_overwrite hne hfit
      have hcounted : counted (c :: chunks) = (cstring c).length + counted chunks := by
        simp [counted]
      rw [messages, receiveAll, if_neg (hhead.symm ▸ hbegin), addInt, Int.zero_add,
        length_cstring_overwrite hfit, receiveAll_clear hnes hles hbegins, hcounted]
      congr 3
      simp only
      omega

/-- The `int` is the size if nothing is counted too much. -/
theorem bmod_eq_size_iff {n lost size more : Nat} (h : n + lost = size + more) (hle : lost ≤ size) :
    (n : Int).bmod (2 ^ 32) = size ↔ size < 2 ^ 31 ∧ more % 2 ^ 32 = lost := by
  rw [Int.bmod_def]
  split <;> omega

/-- When the client prints the size of the file. -/
structure Exact (r : Request) : Prop where
  begins : ∀ c ∈ r.chunks, c.head? ≠ some 0
  size : r.file.length < 2 ^ 31
  surplus : r.surplus.length % 2 ^ 32 = (r.chunks.map hidden).sum

/-- **The client leaves with the last message and prints the size of the file** if and only
if the content of the file and of the server's buffer allows it. -/
theorem served_iff (r : Request) : Served r ↔ Exact r := by
  have hdata := r.length_data
  have hsum := counted_add_hidden r.chunks
  have hcount : counted r.chunks + r.surplus.length + (r.chunks.map hidden).sum =
      r.file.length + r.surplus.length := by
    rw [Request.file]
    omega
  have hiff := bmod_eq_size_iff hcount (by rw [Request.file]; omega)
  rw [served_iff_receiveAll]
  constructor
  · intro h
    have hfit : ∀ c ∈ r.chunks, c.length ≤ r.data.length := fun c hc ↦
      (r.length_le c hc).trans (hdata.symm ▸ Nat.sub_le _ _)
    have hbegins := begins_of_receiveAll r.ne_nil hfit hdata h
    rw [receiveAll_messages hbegins] at h
    obtain ⟨hsize, hsurplus⟩ := hiff.mp (Prod.mk.inj (Option.some.inj h)).1
    exact ⟨hbegins, hsize, hsurplus⟩
  · intro h
    rw [receiveAll_messages h.begins, hiff.mpr ⟨h.size, h.surplus⟩]

/-! ## From one request to the next -/

/-- The buffer is clear, or will be when all has been sent. -/
def Clear (r : Request) (s : State) : Prop :=
  match s.server with
  | .read => s.data = zeros ∨ s.unread = r.chunks ∧ s.data = r.data
  | .send => True
  | .signify | .done => s.data = zeros

theorem Clear.step (h : Clear r s) (hr : r.chunks ≠ [] ∨ r.data = zeros) (hs : Step r s a t) :
    Clear r t := by
  have hset : zeros.set 0 0 = zeros := List.set_replicate_self
  cases hs with
  | eof hserver hunread =>
      simp only [Clear, hserver] at h ⊢
      rcases h with hdata | ⟨hall, hdata⟩
      · rw [hdata, hset]
      · rw [hdata, hr.resolve_left (not_not.mpr (hall ▸ hunread)), hset]
  | read => trivial
  | send => exact .inl rfl
  | signify hserver =>
      simpa only [Clear, hserver] using h
  | leave | receive => exact h

/-- **The buffer is clear after a request** if the file is not empty or if the buffer was
clear before it. -/
theorem data_done (hr : r.chunks ≠ [] ∨ r.data = zeros) (h : (transfer r).Run tr s)
    (hdone : s.server = .done) : s.data = zeros := by
  have hclear : Clear r s := by
    refine h.induction (P := fun _ s ↦ Clear r s) (fun s hs ↦ ?_) fun _ _ _ _ _ ih hs ↦ ?_
    · subst hs
      exact .inr ⟨rfl, rfl⟩
    · exact ih.step hr (.of_step hs)
  simpa only [Clear, hdone] using hclear

/-- With a clear buffer, a file without NULs is counted as it is. -/
theorem exact_of_clear (hdata : r.data = zeros) (hzero : 0 ∉ r.file)
    (hsize : r.file.length < 2 ^ 31) : Exact r := by
  have hnotMem : ∀ c ∈ r.chunks, 0 ∉ c := fun c hc hmem ↦
    hzero (List.mem_flatten.mpr ⟨c, hc, hmem⟩)
  have hhidden : (r.chunks.map hidden).sum = 0 := by
    refine List.sum_eq_zero_iff_forall_eq_nat.mpr fun n hn ↦ ?_
    obtain ⟨c, hc, rfl⟩ := List.mem_map.mp hn
    rw [hidden, cstring_of_notMem (hnotMem c hc), Nat.sub_self]
  refine ⟨fun c hc hnull ↦ hnotMem c hc (List.mem_of_mem_head? hnull), hsize, ?_⟩
  rw [hhidden, Request.surplus]
  cases hchunks : r.chunks with
  | nil => rfl
  | cons c chunks =>
      have hc : c ∈ r.chunks := hchunks ▸ List.mem_cons_self
      have hle := r.length_le c hc
      have hfit : c.length ≤ zeros.length := hle.trans (length_zeros.symm ▸ Nat.sub_le _ _)
      have hlen := @length_cstring_overwrite c _ (r.behind 0) hfit
      rw [cstring_clear hle] at hlen
      rw [hdata]
      simp only
      omega

/-- After a file that is not empty, only the NULs in the next one matter. -/
theorem exact_of_done {r' : Request} (hr : r.chunks ≠ [] ∨ r.data = zeros)
    (h : (transfer r).Run tr s) (hdone : s.server = .done) (hdata : r'.data = s.data)
    (hzero : 0 ∉ r'.file) (hsize : r'.file.length < 2 ^ 31) : Exact r' :=
  exact_of_clear (hdata.trans (data_done hr h hdone)) hzero hsize

/-! ## A file of one byte -/

/-- The byte is a NUL. -/
def nul : Request where
  chunks := [[0]]
  data := zeros
  behind _ := []
  ne_nil := by simp
  length_le := by simp [MSG_SIZE]
  length_data := length_zeros

/-- It is sent, and received. -/
def first : List Op := [.read, .send, .receive]

theorem exec_first :
    Lts.exec (next nul) (start nul) first = some ⟨[], .read, zeros, [], .left, 0, 0⟩ := by
  have hhead : (overwrite zeros 0 [0]).head? = some 0 :=
    head?_overwrite (by simp) (by simp [length_zeros, MSG_SIZE])
  simp [Lts.exec, next, first, start, nul, mq_maxmsg, hhead]

/-- The client leaves before the server has found the end of the file. -/
theorem not_served_nul : ∃ s, (transfer nul).Run first s ∧ s.client = .left ∧
    s.server = .read ∧ ¬ Served nul := by
  have hrun : (transfer nul).Run first _ := .of_exec (init_start nul) exec_first
  refine ⟨_, hrun, rfl, rfl, fun hserved ↦ ?_⟩
  have hdone := (hserved.left _ _ hrun rfl).1
  cases hdone

end SysProg.MqFile
