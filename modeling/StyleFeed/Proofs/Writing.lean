import StyleFeed.Proofs.Transmission

/-!
What one message does to the output, whatever the output answers: it is refused for its size and no call is made, or
its frame is written call by call and flushed once (`Outlet.whole_or_fault`). `Outlet.Writes` says what a course of
calls to write is: each is offered what the ones before it left, and the first fault ends them.
-/

namespace StyleFeed

namespace Outlet

/-- What ends the calls to write. After a call that was interrupted or took a part there is another one. -/
def Answer.fault? : Answer → Option IoFault
  | .takesAll => none
  | .takes n => if n = 0 then some .tookNothing else none
  | .fails fault => if fault.kind = .interrupted then none else some fault

/-- The number of bytes that a call takes of those it is offered. -/
def Answer.taken (offered : Nat) : Answer → Nat
  | .takesAll => offered
  | .takes n => min n offered
  | .fails _ => 0

/-- Calls to write a buffer, by their answers: what they leave of it, and the fault that ends them if there is one. No
call is made for nothing. -/
inductive Writes : Bytes → List Answer → Bytes → Option IoFault → Prop
  | done : Writes [] [] [] none
  | broken {buffer : Bytes} {a : Answer} {fault : IoFault} (more : buffer ≠ []) (fails : a.fault? = some fault) :
      Writes buffer [a] buffer (some fault)
  | call {buffer left : Bytes} {a : Answer} {calls : List Answer} {ending : Option IoFault} (more : buffer ≠ [])
      (fine : a.fault? = none) (rest : Writes (buffer.drop (a.taken buffer.length)) calls left ending) :
      Writes buffer (a :: calls) left ending

/-- The outlet gives these answers in turn and is left with `rest`. The call for which it has none takes everything. -/
def Answers (answers calls rest : List Answer) : Prop :=
  answers = calls ++ rest ∨ (answers ++ [.takesAll] = calls ∧ rest = [])

/-- The fault that the next call to flush fails with. -/
def flushFault? (o : Outlet) : Option IoFault := o.flushes.head?.join

/-- The bytes that a message makes the outlet take. -/
def handed (limit : Nat) (m : Message) (o : Outlet) : Bytes :=
  (send limit m o).2.accepted.drop o.accepted.length

/-- The bytes that each of the messages makes the outlet take. -/
def handedAll (limit : Nat) : List Message → Outlet → List Bytes
  | [], _ => []
  | m :: ms, o => handed limit m o :: handedAll limit ms (send limit m o).2

section
variable {buffer left : Bytes} {answers calls rest : List Answer} {ending : Option IoFault}

theorem Answers.cons (h : Answers answers calls rest) (a : Answer) : Answers (a :: answers) (a :: calls) rest := by
  rcases h with h | ⟨h, none⟩
  · exact .inl (by rw [h, List.cons_append])
  · exact .inr ⟨by rw [← h, List.cons_append], none⟩

/-- Something is left just if a fault ended the calls. -/
theorem Writes.left_eq_nil_iff (h : Writes buffer calls left ending) : left = [] ↔ ending = none := by
  induction h with
  | done => simp
  | broken more fails => simp [more]
  | call more fine rest ih => exact ih

/-- The fault that ended the calls is the only one that they met. -/
theorem Writes.ending_of_mem (h : Writes buffer calls left ending) {a : Answer} (mem : a ∈ calls) {fault : IoFault}
    (met : a.fault? = some fault) : ending = some fault := by
  induction h with
  | done => cases mem
  | broken more fails =>
    obtain rfl := List.mem_singleton.mp mem
    rw [← fails, met]
  | call more fine rest ih =>
    rcases List.mem_cons.mp mem with rfl | mem
    · cases fine.symm.trans met
    · exact ih mem

theorem Writes.exists_mem (h : Writes buffer calls left ending) {fault : IoFault} (met : ending = some fault) :
    ∃ a ∈ calls, a.fault? = some fault := by
  induction h with
  | done => cases met
  | broken more fails =>
    cases met
    exact ⟨_, List.mem_singleton_self _, fails⟩
  | call more fine rest ih =>
    obtain ⟨a, mem, fails⟩ := ih met
    exact ⟨a, List.mem_cons_of_mem _ mem, fails⟩

/-- A call that takes the whole buffer is the last one. -/
theorem Writes.last {a : Answer} (more : buffer ≠ []) (fine : a.fault? = none)
    (all : a.taken buffer.length = buffer.length) : Writes buffer [a] [] none := by
  refine .call more fine ?_
  rw [all, List.drop_length]
  exact .done

/-- Writing a buffer is such calls, and what was taken and what is left make up the buffer. -/
theorem writeAll_writes (more : buffer ≠ []) (accepted : Bytes) (answers : List Answer) :
    ∃ calls taken left ending, Writes buffer calls left ending ∧ taken ++ left = buffer ∧
      (writeAll buffer accepted answers).1 = ending.elim (.ok ()) .error ∧
      Answers answers calls (writeAll buffer accepted answers).2.1 ∧
      (writeAll buffer accepted answers).2.2 = accepted ++ taken := by
  induction answers generalizing buffer accepted with
  | nil => exact ⟨[.takesAll], buffer, [], none, .last more rfl rfl, List.append_nil _, rfl, .inr ⟨rfl, rfl⟩, rfl⟩
  | cons answer answers ih =>
    cases answer with
    | takesAll => exact ⟨[.takesAll], buffer, [], none, .last more rfl rfl, List.append_nil _, rfl, .inl rfl, rfl⟩
    | takes n =>
      rw [writeAll]
      split
      · rename_i zero
        refine ⟨[.takes n], [], buffer, _, .broken more (if_pos zero), rfl, rfl, .inl rfl, ?_⟩
        exact (List.append_nil _).symm
      rename_i some
      have fine : (Answer.takes n).fault? = none := if_neg some
      split
      · rename_i enough
        exact ⟨[.takes n], buffer, [], none, .last more fine (Nat.min_eq_right enough), List.append_nil _, rfl,
          .inl rfl, rfl⟩
      · rename_i short
        have part : n ≤ buffer.length := Nat.le_of_not_le short
        have unfinished : buffer.drop n ≠ [] := by
          intro h
          exact short (List.drop_eq_nil_iff.mp h)
        obtain ⟨calls, taken, left, ending, writes, whole, result, answered, accepted⟩ :=
          ih unfinished (accepted ++ buffer.take n)
        refine ⟨.takes n :: calls, buffer.take n ++ taken, left, ending, .call more fine ?_, ?_, result,
          answered.cons _, ?_⟩
        · rwa [Answer.taken, Nat.min_eq_left part]
        · rw [List.append_assoc, whole, List.take_append_drop]
        · rw [accepted, List.append_assoc]
    | fails fault =>
      rw [writeAll]
      split
      · rename_i again
        obtain ⟨calls, taken, left, ending, writes, whole, result, answered, accepted⟩ := ih more accepted
        exact ⟨.fails fault :: calls, taken, left, ending, .call more (if_pos again) writes, whole, result,
          answered.cons _, accepted⟩
      · rename_i final
        refine ⟨[.fails fault], [], buffer, _, .broken more (if_neg final), rfl, rfl, .inl rfl, ?_⟩
        exact (List.append_nil _).symm

end

theorem flush_eq (o : Outlet) :
    flush o = (o.flushFault?.elim (.ok ()) .error,
      { o with flushes := o.flushes.tail, flushed := o.flushed + o.flushFault?.elim 1 fun _ => 0 }) := by
  unfold flush flushFault?
  cases o.flushes with
  | nil => rfl
  | cons answer flushes => cases answer <;> rfl

variable {limit : Nat} {m : Message} {o : Outlet}

theorem frame_ne_nil (m : Message) : m.frame ≠ [] := nofun

/-- A message that does not fit is refused for the limit, or else for what a header can say. -/
theorem send_tooLarge (exceeds : ¬ m.Fits limit) :
    send limit m o =
      (.error (.tooLarge m.payload.length (if limit < m.payload.length then limit else headerLimit)), o) := by
  rw [send_eq_payload]
  split
  · rfl
  · rename_i within
    have overHeader : headerLimit < m.payload.length :=
      Nat.not_le.mp fun h => exceeds ⟨Nat.not_lt.mp within, h⟩
    rw [if_pos overHeader]

/-- A message that fits is written, and then flushed if all of it was taken. -/
theorem send_eq (fits : m.Fits limit) {writes : List Answer} {accepted : Bytes} {ending : Option IoFault}
    (written : writeAll m.frame o.accepted o.writes = (ending.elim (.ok ()) .error, writes, accepted)) :
    send limit m o = ending.elim
      (o.flushFault?.elim (.ok ()) (.error ∘ .io),
        { writes, accepted, flushes := o.flushes.tail, flushed := o.flushed + o.flushFault?.elim 1 fun _ => 0 })
      fun fault => (.error (.io fault), { o with writes, accepted }) := by
  rw [send_eq_payload, if_neg (Nat.not_lt.mpr fits.1), if_neg (Nat.not_lt.mpr fits.2), written]
  cases ending with
  | some fault => rfl
  | none =>
    simp only [Option.elim_none, flush_eq, flushFault?]
    cases o.flushes.head?.join <;> rfl

/-- What the outlet has taken before stays, and what it is handed comes after it. -/
theorem accepted_send (limit : Nat) (m : Message) (o : Outlet) :
    (send limit m o).2.accepted = o.accepted ++ handed limit m o := by
  unfold handed
  rcases send_cases limit m o with ⟨-, _, h⟩ | ⟨-, _, h, accepted⟩ | ⟨-, _, _, _, h, -, accepted⟩
  · rw [h, List.drop_length, List.append_nil]
  · rw [h, accepted, List.drop_left]
  · rw [h, accepted, List.drop_left]

theorem accepted_sendAll (limit : Nat) (ms : List Message) (o : Outlet) :
    (sendAll limit ms o).2.accepted = o.accepted ++ (handedAll limit ms o).flatten := by
  induction ms generalizing o with
  | nil => exact (List.append_nil _).symm
  | cons m ms ih => rw [sendAll, ih, accepted_send, handedAll, List.flatten_cons, List.append_assoc]

/-- A message over the limit or over what a header can say makes no call and is refused for the limit if it is over
that, which is the smaller of the two unless the limit is more than a header can say. The frame of any other message is
written call by call: a call that takes nothing or fails, interruptions apart, ends the message before all was taken and
before a flush; after the calls comes one flush, and all that it decides is the result. What messages sent one after the
other make the outlet take is what each of them does, in order. -/
theorem whole_or_fault (limit : Nat) (m : Message) (o : Outlet) :
    let size := m.payload.length
    let result := (send limit m o).1
    let o' := (send limit m o).2
    (min limit headerLimit < size → ∃ bound, send limit m o = (.error (.tooLarge size bound), o) ∧
      bound = (if limit < size then limit else headerLimit) ∧
      (limit ≤ headerLimit ∨ size ≤ limit → bound = min limit headerLimit)) ∧
    (size ≤ min limit headerLimit → ∃ calls left ending,
      Answers o.writes calls o'.writes ∧ Writes m.frame calls left ending ∧ handed limit m o ++ left = m.frame ∧
      (result = .ok () ↔ handed limit m o = m.frame ∧ o.flushFault? = none) ∧
      (∀ a ∈ calls, ∀ fault, a.fault? = some fault → result = .error (.io fault) ∧ handed limit m o ≠ m.frame ∧
        o'.flushes = o.flushes ∧ o'.flushed = o.flushed) ∧
      ((∀ a ∈ calls, a.fault? = none) → handed limit m o = m.frame ∧
        result = o.flushFault?.elim (.ok ()) (.error ∘ .io) ∧
        o'.flushes = o.flushes.tail ∧ o'.flushed = o.flushed + o.flushFault?.elim 1 fun _ => 0)) ∧
    o'.accepted = o.accepted ++ handed limit m o ∧
    ∀ ms, (sendAll limit ms o).2.accepted = o.accepted ++ (handedAll limit ms o).flatten := by
  intro size result o'
  have accepted := accepted_send limit m o
  refine ⟨?_, ?_, accepted, fun ms => accepted_sendAll limit ms o⟩
  · intro exceeds
    have refused : ¬ m.Fits limit := fun fits => Nat.not_le_of_lt exceeds (Nat.le_min.mpr fits)
    refine ⟨_, send_tooLarge refused, rfl, ?_⟩
    intro usual
    split <;> omega
  · intro within
    obtain ⟨calls, taken, left, ending, writes, whole, written, answered, took⟩ :=
      writeAll_writes (frame_ne_nil m) o.accepted o.writes
    have sent := send_eq (Nat.le_min.mp within) (Prod.ext written rfl)
    have handed_eq : handed limit m o = taken := by
      apply List.append_cancel_left
      rw [← accepted, sent, ← took]
      cases ending <;> rfl
    have all : handed limit m o = m.frame ↔ ending = none := by
      rw [← writes.left_eq_nil_iff, handed_eq]
      nth_rewrite 1 [← whole]
      exact List.self_eq_append_right
    refine ⟨calls, left, ending, ?_, writes, handed_eq ▸ whole, ?_, ?_, ?_⟩
    · rw [show o' = _ from congrArg Prod.snd sent]
      cases ending <;> exact answered
    · rw [all, show result = _ from congrArg Prod.fst sent]
      cases ending with
      | some fault => simp
      | none => cases o.flushFault? <;> simp
    · intro a mem fault met
      obtain rfl := writes.ending_of_mem mem met
      rw [Ne, all, show result = _ from congrArg Prod.fst sent, show o' = _ from congrArg Prod.snd sent]
      exact ⟨rfl, nofun, rfl, rfl⟩
    · intro fine
      have none : ending = none := by
        by_contra some
        obtain ⟨fault, met⟩ := Option.ne_none_iff_exists'.mp some
        obtain ⟨a, mem, fails⟩ := writes.exists_mem met
        cases (fine a mem).symm.trans fails
      rw [all, show result = _ from congrArg Prod.fst sent, show o' = _ from congrArg Prod.snd sent]
      subst none
      exact ⟨rfl, rfl, rfl, rfl⟩

/-! One message to an outlet that stops taking bytes, and to one that is interrupted when it is flushed. -/
namespace Stopped

def message : Message := .deleted "a"

def full : Outlet := ⟨[.takes 10, .fails (.ofKind .interrupted), .takes 0], [none], [], 0⟩

def unflushed : Outlet := ⟨[.takes 10], [some (.ofKind .interrupted)], [], 0⟩

theorem stops_short :
    (min 20 headerLimit < message.payload.length ∧ ∃ bound, bound = 20 ∧
      send 20 message full = (.error (.tooLarge message.payload.length bound), full)) ∧
    message.payload.length ≤ min 64 headerLimit ∧
    ((send 64 message full).1 = .error (.io .tookNothing) ∧ handed 64 message full ≠ message.frame) ∧
    (send 64 message unflushed).1 = .error (.io (.ofKind .interrupted)) ∧
      handed 64 message unflushed = message.frame := by
  have exceeds : min 20 headerLimit < message.payload.length := by decide +kernel
  have within : message.payload.length ≤ min 64 headerLimit := by decide +kernel
  have stopped : (send 64 message full).1 = .error (.io .tookNothing) := by decide +kernel
  have failed : (send 64 message unflushed).1 = .error (.io (.ofKind .interrupted)) := by decide +kernel
  refine ⟨⟨exceeds, ?_⟩, within, ⟨stopped, ?_⟩, failed, ?_⟩
  · obtain ⟨bound, refused, -, usual⟩ := (whole_or_fault 20 message full).1 exceeds
    exact ⟨bound, usual (.inl (by decide)), refused⟩
  · obtain ⟨-, -, -, -, -, -, ok, -⟩ := (whole_or_fault 64 message full).2.1 within
    intro all
    cases stopped.symm.trans (ok.mpr ⟨all, rfl⟩)
  · obtain ⟨calls, -, -, -, -, -, -, broken, whole⟩ := (whole_or_fault 64 message unflushed).2.1 within
    -- a fault of a call to write would leave the answer for the flush
    have flushed : (send 64 message unflushed).2.flushes ≠ unflushed.flushes := by decide +kernel
    refine (whole fun a mem => ?_).1
    by_contra some
    obtain ⟨fault, met⟩ := Option.ne_none_iff_exists'.mp some
    exact flushed (broken a mem fault met).2.2.1

end Stopped

/-! A limit of more than a header can say, and a payload that is over both. -/
namespace OverBoth

def wide : Nat := headerLimit + 1

/-- Each character of the content is written with six bytes. -/
def message (n : Nat) : Message := .created "a" (String.ofList (List.replicate n '\x01'))

theorem length_payload (n : Nat) : (message n).payload.length = 6 * n + 37 := by
  have content : Utf8.encode (String.ofList (List.replicate n '\x01')) = List.replicate n 1 := by
    rw [Utf8.encode_ofList, Utf8.encodeChars, List.flatMap_replicate]
    exact List.flatten_replicate_singleton
  have quoted : Json.quotedSize (String.ofList (List.replicate n '\x01')) = 6 * n + 2 := by
    rw [Json.quotedSize_eq, content, Json.escapedLength_replicate]
    exact congrArg (· + 2) (Nat.mul_comm n 6)
  have label : Json.quotedSize Message.Kind.created.label = 9 := by decide +kernel
  have fields : Json.quotedSize "name" + Json.quotedSize "a" + Json.quotedSize "content" = 18 := by decide +kernel
  rw [Message.length_payload]
  simp only [message, Message.size, Message.kind, Message.Kind.fields, Message.values, List.zip_cons_cons,
    List.zip_nil_right, Json.fieldsSize, quoted, label]
  omega

/-- The fault carries the limit, and not the smaller of the two. -/
theorem refused_for_limit : min wide headerLimit < (message 715827883).payload.length ∧
    (send wide (message 715827883) willing).1 = .error (.tooLarge 4294967335 4294967296) ∧
    (send wide (message 715827883) willing).1 ≠
      .error (.tooLarge (message 715827883).payload.length (min wide headerLimit)) := by
  have length : (message 715827883).payload.length = 4294967335 := length_payload _
  have exceeds : wide < (message 715827883).payload.length := by
    rw [length]
    decide
  have refused : ¬ (message 715827883).Fits wide := fun fits => Nat.not_le_of_lt exceeds fits.1
  have sent : (send wide (message 715827883) willing).1 = .error (.tooLarge 4294967335 wide) := by
    rw [send_tooLarge refused, if_pos exceeds, length]
  refine ⟨Nat.lt_of_le_of_lt (Nat.min_le_left ..) exceeds, sent, ?_⟩
  rw [sent, length]
  decide

end OverBoth

end Outlet
end StyleFeed
