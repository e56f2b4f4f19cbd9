import SysProg.Lib.History
import SysProg.MqFile.Protocol

/-!
# The server of the message queues, request after request

The server of `52_3` answers the requests one by one, with one `server_res` for all of them:
it is not initialised, it is cleared behind each data message that has been sent, and only
its first byte is cleared for the last message.  A queue or a file that cannot be opened and
a last message that cannot be sent end a request with `continue`, and a data message that
cannot be sent ends the loop over the file.

* `Answers` is what the system answers for one request, and `serve` is the body of the loop
  with these answers.  `close` and `mq_close` succeed; a request whose `close` fails ends the
  server, and what it has sent by then is what it sends if the last `mq_send` fails.
* `clean_iff_covered`: the messages of a request hold nothing but its own file and zeros, if
  and only if the buffer holds zeros behind what is written to it first.
  `clean_of_sent`: so it is for ever if it is so once, and no data message fails.
* `served_descriptors`: what a request leaves open.
-/

namespace SysProg.MqFile

open SysProg.Lib

/-! ## The buffer -/

/-- What `server_res.data` can hold. -/
@[ext] structure Buffer where
  data : List UInt8
  length_data : data.length = MSG_SIZE

/-- `read(req_file_fd, server_res.data, MSG_SIZE - 1)` -/
def Buffer.read (b : Buffer) (chunk : List UInt8) : Buffer :=
  ⟨overwrite b.data 0 chunk, (length_overwrite _ _ _).trans b.length_data⟩

/-- `server_res.data[0] = '\0'` -/
def Buffer.signify (b : Buffer) : Buffer :=
  ⟨b.data.set 0 0, List.length_set.trans b.length_data⟩

/-- `memset(&server_res, 0, sizeof(struct response_msg))` -/
def Buffer.clear : Buffer := ⟨zeros, length_zeros⟩

@[simp] theorem Buffer.read_nil (b : Buffer) : b.read [] = b := Buffer.ext (overwrite_nil b.data 0)

theorem Buffer.data_signify (b : Buffer) : b.signify.data = b.data.set 0 0 := rfl

/-- The last message is written like a chunk of one NUL. -/
theorem Buffer.signify_eq (b : Buffer) : b.signify = b.read [0] :=
  Buffer.ext (overwrite_singleton b.data 0 0).symm

theorem Buffer.data_read (b : Buffer) {chunk : List UInt8} (hlen : chunk.length ≤ MSG_SIZE) :
    (b.read chunk).data = chunk ++ b.data.drop chunk.length :=
  overwrite_chunk (hlen.trans b.length_data.ge)

/-! ## A request -/

/-- How the system answers the calls that the server makes for a request. -/
structure Answers where
  /-- Whether the client's queue can be opened. -/
  mq_open : Bool
  /-- Whether the file can be opened. -/
  open_file : Bool
  /-- What `read` returns, call by call, and whether the `mq_send` behind it succeeds. -/
  reads : List (List UInt8 × Bool)
  /-- Whether the `mq_send` of the last message succeeds. -/
  signify : Bool
  ne_nil : ∀ p ∈ reads, p.1 ≠ []
  length_le : ∀ p ∈ reads, p.1.length ≤ MSG_SIZE - 1

inductive Descriptor where
  | stdin
  | stdout
  | stderr
  | mq_server
  | mq_client
  | req_file_fd
deriving DecidableEq

/-- The server at its `mq_receive`. -/
structure Server where
  server_res : Buffer
  /-- What is open, the newest first. -/
  descriptors : List Descriptor

/-- What is sent for a request. -/
structure Reply where
  /-- The data messages. -/
  sent : List (List UInt8)
  /-- The last message. -/
  signified : Option (List UInt8)

/-- The loop over the file: what it leaves in the buffer, and the messages that it sends. -/
def sendFile (b : Buffer) : List (List UInt8 × Bool) → Buffer × List (List UInt8)
  | [] => (b, [])
  | (chunk, true) :: reads =>
      ((sendFile .clear reads).1, (b.read chunk).data :: (sendFile .clear reads).2)
  | (chunk, false) :: _ => (b.read chunk, [])

/-- One request, from `mq_receive` to `mq_receive`. -/
def serve (s : Server) (a : Answers) : Server × Reply :=
  if a.mq_open then
    let descriptors := .mq_client :: s.descriptors
    if a.open_file then
      let descriptors := .req_file_fd :: descriptors
      let (server_res, sent) := sendFile s.server_res a.reads
      let descriptors := descriptors.erase .req_file_fd
      let server_res := server_res.signify
      if a.signify then
        (⟨server_res, descriptors.erase .mq_client⟩, ⟨sent, some server_res.data⟩)
      else (⟨server_res, descriptors⟩, ⟨sent, none⟩)
    else (⟨s.server_res, descriptors⟩, ⟨[], none⟩)
  else (s, ⟨[], none⟩)

/-- What is open before the first request. -/
def initialDescriptors : List Descriptor := [.mq_server, .stderr, .stdout, .stdin]

/-- The server before its first request; nobody has written to `server_res`. -/
def server (server_res : Buffer) : Server := ⟨server_res, initialDescriptors⟩

/-- The server after some requests. -/
def served (s : Server) (requests : List Answers) : Server :=
  requests.foldl (fun s a ↦ (serve s a).1) s

@[simp] theorem served_nil (s : Server) : served s [] = s := rfl

@[simp] theorem served_concat (s : Server) (requests : List Answers) (a : Answers) :
    served s (requests ++ [a]) = (serve (served s requests) a).1 := by
  simp [served]

variable {b : Buffer} {chunk : List UInt8} {reads : List (List UInt8 × Bool)} {a : Answers}
  {s : Server} {requests : List Answers}

/-! ## What may be sent -/

/-- Some bytes of a file, followed only by zeros. -/
def pad (chunk : List UInt8) : List UInt8 :=
  chunk ++ List.replicate (MSG_SIZE - chunk.length) 0

/-- What has been read when an `mq_send` fails. -/
def unsent : List (List UInt8 × Bool) → List UInt8
  | [] => []
  | (_, true) :: reads => unsent reads
  | (chunk, false) :: _ => chunk

/-- Nothing but the file of the request and zeros.  The last message may hold what has been
read and could not be sent. -/
structure Clean (a : Answers) (r : Reply) : Prop where
  sent : r.sent <+: a.reads.map fun p ↦ pad p.1
  signified : ∀ m ∈ r.signified, m = (pad (unsent a.reads)).set 0 0

/-- What is written to the buffer first. -/
def Answers.written (a : Answers) : List UInt8 :=
  match a.reads with
  | [] => [0]
  | (chunk, _) :: _ => chunk

/-- Whether anything can be sent. -/
def Answers.sends (a : Answers) : Bool :=
  a.mq_open && a.open_file && (a.signify || a.reads.head?.any Prod.snd)

/-- The buffer holds zeros behind what is written to it first. -/
def Covered (b : Buffer) (a : Answers) : Prop :=
  a.sends → ∀ x ∈ b.data.drop a.written.length, x = 0

theorem read_eq_pad_iff (hlen : chunk.length ≤ MSG_SIZE) :
    (b.read chunk).data = pad chunk ↔ ∀ x ∈ b.data.drop chunk.length, x = 0 := by
  have hdrop : (b.data.drop chunk.length).length = MSG_SIZE - chunk.length := by
    rw [List.length_drop, b.length_data]
  rw [b.data_read hlen, pad, List.append_right_inj, List.eq_replicate_iff]
  exact and_iff_right hdrop

theorem clear_read (hlen : chunk.length ≤ MSG_SIZE) :
    (Buffer.clear.read chunk).data = pad chunk :=
  read_eq_pad_iff hlen |>.mpr fun _ hx ↦ List.eq_of_mem_replicate (List.mem_of_mem_drop hx)

/-- The NUL at the beginning hides nothing of what is behind the chunk. -/
theorem signify_read_iff (hne : chunk ≠ []) (hlen : chunk.length ≤ MSG_SIZE) :
    (b.read chunk).signify.data = (pad chunk).set 0 0 ↔
      ∀ x ∈ b.data.drop chunk.length, x = 0 := by
  rw [← read_eq_pad_iff hlen, Buffer.data_signify, b.data_read hlen, pad]
  obtain ⟨x, rest, rfl⟩ := List.exists_cons_of_ne_nil hne
  simp

theorem set_pad_nil : (pad []).set 0 0 = pad [0] := by
  have hsize : MSG_SIZE - ([] : List UInt8).length = MSG_SIZE - [(0 : UInt8)].length + 1 := rfl
  rw [pad, pad, List.nil_append, hsize, List.replicate_succ, List.set_cons_zero,
    List.singleton_append]

theorem signify_iff : b.signify.data = (pad []).set 0 0 ↔ ∀ x ∈ b.data.drop 1, x = 0 := by
  have hlen : [(0 : UInt8)].length ≤ MSG_SIZE := by decide
  rw [b.signify_eq, set_pad_nil]
  exact read_eq_pad_iff hlen

/-- Whatever happens, a buffer that has been cleared leaks nothing. -/
theorem sendFile_clear (hlen : ∀ p ∈ reads, p.1.length ≤ MSG_SIZE) :
    (sendFile .clear reads).1.data = pad (unsent reads) ∧
      (sendFile .clear reads).2 <+: reads.map fun p ↦ pad p.1 := by
  induction reads with
  | nil =>
      have hclear := @clear_read [] (Nat.zero_le MSG_SIZE)
      rw [Buffer.read_nil] at hclear
      exact ⟨hclear, List.prefix_rfl⟩
  | cons p reads ih =>
      obtain ⟨hp, hreads⟩ := List.forall_mem_cons.mp hlen
      match p with
      | (chunk, true) =>
          obtain ⟨hbuffer, hsent⟩ := ih hreads
          refine ⟨hbuffer, List.prefix_cons_iff.mpr (.inr ⟨_, ?_, hsent⟩)⟩
          rw [sendFile, clear_read hp]
      | (chunk, false) => exact ⟨clear_read hp, List.nil_prefix⟩

/-! ## One request -/

theorem reply_of_open (hopen : a.mq_open ∧ a.open_file) :
    (serve s a).2 = ⟨(sendFile s.server_res a.reads).2,
      if a.signify then some (sendFile s.server_res a.reads).1.signify.data else none⟩ := by
  rw [serve, if_pos hopen.1]
  simp only [hopen.2, if_true]
  split <;> rfl

theorem reply_of_not_open (hopen : ¬ (a.mq_open ∧ a.open_file)) :
    (serve s a).2 = ⟨[], none⟩ := by
  rw [serve]
  split
  · next hqueue => rw [if_neg fun hfile ↦ hopen ⟨hqueue, hfile⟩]
  · rfl

theorem server_res_serve : (serve s a).1.server_res =
    if a.mq_open ∧ a.open_file then (sendFile s.server_res a.reads).1.signify
    else s.server_res := by
  by_cases hqueue : a.mq_open <;> by_cases hfile : a.open_file <;>
    by_cases hsignify : a.signify <;> simp [serve, hqueue, hfile, hsignify]

/-- A queue is left open if the file cannot be opened, or the last message cannot be sent. -/
theorem descriptors_serve : (serve s a).1.descriptors =
    if a.mq_open → a.open_file ∧ a.signify then s.descriptors
    else .mq_client :: s.descriptors := by
  by_cases hqueue : a.mq_open <;> by_cases hfile : a.open_file <;>
    by_cases hsignify : a.signify <;> simp [serve, hqueue, hfile, hsignify]

theorem clean_of_not_open (hopen : ¬ (a.mq_open ∧ a.open_file)) : Clean a (serve s a).2 := by
  rw [reply_of_not_open hopen]
  exact ⟨List.nil_prefix, fun m hm ↦ nomatch hm⟩

theorem clean_iff_of_open (hopen : a.mq_open ∧ a.open_file) : Clean a (serve s a).2 ↔
    (sendFile s.server_res a.reads).2 <+: (a.reads.map fun p ↦ pad p.1) ∧
      (a.signify → (sendFile s.server_res a.reads).1.signify.data =
        (pad (unsent a.reads)).set 0 0) := by
  rw [reply_of_open hopen]
  constructor
  · intro h
    exact ⟨h.sent, fun hsignify ↦ h.signified _ (if_pos hsignify)⟩
  · rintro ⟨hsent, hsignify⟩
    refine ⟨hsent, fun m hm ↦ ?_⟩
    obtain ⟨h, hm⟩ := Option.ite_none_right_eq_some.mp hm
    exact Option.some.inj hm ▸ hsignify h

theorem length_le_size (a : Answers) : ∀ p ∈ a.reads, p.1.length ≤ MSG_SIZE :=
  fun p hp ↦ (a.length_le p hp).trans (Nat.sub_le _ _)

/-- **One request** sends nothing but its own file and zeros, if and only if there are zeros
behind what is written to the buffer first. -/
theorem clean_iff_covered : Clean a (serve s a).2 ↔ Covered s.server_res a := by
  by_cases hopen : a.mq_open ∧ a.open_file
  · have hsends : a.sends ↔ a.signify ∨ a.reads.head?.any Prod.snd := by
      simp [Answers.sends, hopen]
    have hlen := length_le_size a
    have hne := a.ne_nil
    rw [clean_iff_of_open hopen, Covered, Answers.written, hsends]
    cases hreads : a.reads with
    | nil => simp [sendFile, unsent, signify_iff]
    | cons p reads =>
        rw [hreads] at hlen hne
        obtain ⟨hlen, hlens⟩ := List.forall_mem_cons.mp hlen
        obtain ⟨hne, -⟩ := List.forall_mem_cons.mp hne
        match p with
        | (chunk, true) =>
            obtain ⟨hbuffer, hsent⟩ := sendFile_clear hlens
            have hlast : (sendFile .clear reads).1.signify.data =
                (pad (unsent reads)).set 0 0 := by
              rw [Buffer.data_signify, hbuffer]
            simp [sendFile, unsent, List.cons_prefix_cons, hsent, hlast, read_eq_pad_iff hlen]
        | (chunk, false) =>
            simp [sendFile, unsent, signify_read_iff hne hlen]
  · have hsends : ¬ a.sends := by
      rw [Answers.sends, Bool.and_eq_true, Bool.and_eq_true]
      exact fun h ↦ hopen h.1
    exact iff_of_true (clean_of_not_open hopen) fun h ↦ absurd h hsends

/-! ## Many requests -/

/-- All data messages of a request are sent. -/
def Answers.Sent (a : Answers) : Prop := ∀ p ∈ a.reads, p.2 = true

theorem unsent_of_sent (h : ∀ p ∈ reads, p.2 = true) : unsent reads = [] := by
  induction reads with
  | nil => rfl
  | cons p reads ih =>
      obtain ⟨hp, hreads⟩ := List.forall_mem_cons.mp h
      match p with
      | (chunk, true) => exact ih hreads

/-- Zeros behind the first byte stay there as long as no data message fails. -/
theorem tail_serve (hsent : a.Sent) (htail : ∀ x ∈ s.server_res.data.drop 1, x = 0) :
    ∀ x ∈ (serve s a).1.server_res.data.drop 1, x = 0 := by
  rw [server_res_serve]
  split
  · rw [← signify_iff]
    have hset : ∀ b : Buffer, b.signify.signify = b.signify :=
      fun b ↦ Buffer.ext (List.set_set ..)
    rw [hset]
    have hlen := length_le_size a
    have hall : ∀ p ∈ a.reads, p.2 = true := hsent
    cases hreads : a.reads with
    | nil => exact signify_iff.mpr htail
    | cons p reads =>
        rw [hreads] at hlen hall
        obtain ⟨-, hlens⟩ := List.forall_mem_cons.mp hlen
        obtain ⟨hp, halls⟩ := List.forall_mem_cons.mp hall
        match p with
        | (chunk, true) =>
            rw [sendFile, Buffer.data_signify, (sendFile_clear hlens).1, unsent_of_sent halls]
  · exact htail

theorem covered_of_tail (htail : ∀ x ∈ b.data.drop 1, x = 0) : Covered b a := by
  intro _ x hx
  have hwritten : 1 ≤ a.written.length := by
    have hne := a.ne_nil
    rw [Answers.written]
    cases hreads : a.reads with
    | nil => exact le_rfl
    | cons p reads => exact List.length_pos_of_ne_nil (hne p (hreads ▸ List.mem_cons_self))
  obtain ⟨k, hk⟩ := Nat.exists_eq_add_of_le hwritten
  rw [hk, ← List.drop_drop] at hx
  exact htail x (List.mem_of_mem_drop hx)

/-- **A clear buffer stays clear** while all data messages are sent. -/
theorem clean_of_sent (htail : ∀ x ∈ s.server_res.data.drop 1, x = 0)
    (hsent : ∀ a ∈ requests, a.Sent) :
    EachCall (fun pre a ↦ Clean a (serve (served s pre) a).2) requests := by
  have hinv : EachCall (fun pre a ↦ Clean a (serve (served s pre) a).2) requests ∧
      ∀ x ∈ (served s requests).server_res.data.drop 1, x = 0 := by
    induction requests using List.reverseRecOn with
    | nil => exact ⟨eachCall_nil _, htail⟩
    | append_singleton requests a ih =>
        obtain ⟨hclean, htail⟩ := ih fun a ha ↦ hsent a (List.mem_append_left _ ha)
        have ha : a.Sent := hsent a (List.mem_append_right _ (List.mem_singleton_self a))
        rw [served_concat]
        exact ⟨eachCall_concat.mpr ⟨hclean, clean_iff_covered.mpr (covered_of_tail htail)⟩,
          tail_serve ha htail⟩
  exact hinv.1

/-- **No leakage between requests**: each request of a server sends nothing but its own file and
zeros, if and only if each finds zeros behind what it writes to the buffer first. -/
theorem no_leakage_iff (server_res : Buffer) (requests : List Answers) :
    EachCall (fun pre a ↦ Clean a (serve (served (server server_res) pre) a).2) requests ↔
      EachCall (fun pre a ↦ Covered (served (server server_res) pre).server_res a) requests :=
  forall₃_congr fun _ _ _ ↦ clean_iff_covered

/-- If everything can be opened and sent, these are the messages of a single request. -/
theorem sendFile_messages (hsent : ∀ p ∈ reads, p.2 = true) :
    (sendFile b reads).2 ++ [(sendFile b reads).1.signify.data] =
      messages b.data (reads.map Prod.fst) := by
  induction reads generalizing b with
  | nil => rfl
  | cons p reads ih =>
      obtain ⟨hp, hreads⟩ := List.forall_mem_cons.mp hsent
      match p with
      | (chunk, true) => exact congrArg (_ :: ·) (ih hreads)

/-- A file of two bytes, whose only message cannot be sent. -/
def refused : Answers := ⟨true, true, [([1, 2], false)], false, by decide, by decide⟩

/-- A file of one byte. -/
def short : Answers := ⟨true, true, [([3], true)], true, by decide, by decide⟩

theorem server_res_refused :
    (served (server .clear) [refused]).server_res.data = 0 :: 2 :: zeros.drop 2 := by
  have hserved : (served (server .clear) [refused]).server_res =
      (Buffer.clear.read [1, 2]).signify := server_res_serve
  have hlen : [(1 : UInt8), 2].length ≤ MSG_SIZE := by decide
  rw [hserved, Buffer.data_signify, Buffer.data_read _ hlen]
  rfl

/-- The second byte of the first file is sent with the second. -/
theorem leakage_refused : ¬ ∀ server_res requests,
    EachCall (fun pre a ↦ Clean a (serve (served (server server_res) pre) a).2) requests := by
  intro h
  have hclean := h .clear [refused, short] [refused] short List.prefix_rfl
  have hcovered := clean_iff_covered.mp hclean rfl
  rw [server_res_refused] at hcovered
  exact absurd (hcovered 2 List.mem_cons_self) (by decide)

/-! ## What a request leaves behind -/

/-- A request whose queue is left open. -/
def Answers.leaves (a : Answers) : Bool := a.mq_open && !(a.open_file && a.signify)

theorem leaves_iff : a.leaves = false ↔ (a.mq_open → a.open_file ∧ a.signify) := by
  simp [Answers.leaves]

/-- **The queues that have been left open** stay so until the server ends. -/
theorem served_descriptors (s : Server) (requests : List Answers) :
    (served s requests).descriptors =
      List.replicate (requests.countP Answers.leaves) .mq_client ++ s.descriptors := by
  induction requests using List.reverseRecOn with
  | nil => rfl
  | append_singleton requests a ih =>
      rw [served_concat, descriptors_serve, ih, List.countP_append, List.countP_singleton]
      cases h : a.leaves with
      | false => rw [if_pos (leaves_iff.mp h), if_neg Bool.false_ne_true, Nat.add_zero]
      | true =>
          have hleft : ¬ (a.mq_open → a.open_file ∧ a.signify) := fun hnot ↦
            Bool.false_ne_true ((leaves_iff.mpr hnot).symm.trans h)
          rw [if_neg hleft, if_pos rfl, List.replicate_succ, List.cons_append]

theorem descriptors_eq_iff : (served s requests).descriptors = s.descriptors ↔
    ∀ a ∈ requests, a.mq_open → a.open_file ∧ a.signify := by
  rw [served_descriptors, List.append_left_eq_self, List.replicate_eq_nil_iff,
    List.countP_eq_zero]
  exact forall₂_congr fun _ _ ↦ (Bool.not_eq_true _).to_iff.trans leaves_iff

/-- A client whose queue takes messages is told the end. -/
def Answered (a : Answers) (r : Reply) : Prop := a.mq_open → a.signify → r.signified ≠ none

theorem answered_of_open_file (hfile : a.mq_open → a.open_file) : Answered a (serve s a).2 := by
  intro hqueue hsignify
  rw [reply_of_open ⟨hqueue, hfile hqueue⟩, if_pos hsignify]
  exact Option.some_ne_none _

/-- **Each time the server is back at `mq_receive`** nothing is open but what was open at
first, and the client has been answered, if and only if the file of each queue that has been
opened can be opened, and its last message can be sent. -/
theorem released_iff (server_res : Buffer) (requests : List Answers) :
    EachCall (fun pre a ↦
        (served (server server_res) (pre ++ [a])).descriptors = initialDescriptors ∧
          Answered a (serve (served (server server_res) pre) a).2) requests ↔
      ∀ a ∈ requests, a.mq_open → a.open_file ∧ a.signify := by
  constructor
  · intro h a ha
    obtain ⟨pre, post, rfl⟩ := List.append_of_mem ha
    have hpre : pre ++ [a] <+: pre ++ a :: post := ⟨post, by simp⟩
    exact descriptors_eq_iff.mp (h pre a hpre).1 a (by simp)
  · intro h pre a hpre
    have hall : ∀ d ∈ pre ++ [a], d.mq_open → d.open_file ∧ d.signify :=
      fun d hd ↦ h d (hpre.subset hd)
    refine ⟨descriptors_eq_iff.mpr hall, answered_of_open_file fun hqueue ↦ ?_⟩
    exact (hall a (by simp) hqueue).1

/-- A client asks for a file that cannot be opened. -/
def missing : Answers := ⟨true, false, [], true, by decide, by decide⟩

/-- Its queue stays open, and it waits for a message. -/
theorem released_missing : ¬ ∀ server_res requests, EachCall (fun pre a ↦
    (served (server server_res) (pre ++ [a])).descriptors = initialDescriptors ∧
      Answered a (serve (served (server server_res) pre) a).2) requests := by
  intro h
  obtain ⟨-, hanswered⟩ := h .clear [missing] [] missing List.prefix_rfl
  exact hanswered rfl rfl rfl

end SysProg.MqFile
