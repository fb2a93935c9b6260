import GraphCodec.Proofs.Encoding

/-!
# Brackets of events

A listener can be told more after it has refused an event (`Listener.after`, `Listener.answers`), and
events can be sent to it by hand, in any order. The writer of file images knows of their order only
what its frames say: an event opens a frame, closes one or keeps what is open (`ValueEvent.turn`),
and an end closes the innermost frame even when it does not fit.

Well bracketed events are given by a grammar (`Bracketed`): between the event that opens a frame and
the one that closes it there are bracketed events. The frames accept them and nothing else
(`Image.Writer.closes_iff_bracketed`). The argument goes through what is left to come when some
frames are open: bracketed events and an end for each of these frames in turn (`Unwinds`).

The bytes have nothing to do with any of this: every event appends what it appends to nothing
(`Image.Writer.bytes_after`).
-/

namespace GraphCodec

/-! ### Listeners that are told more -/

namespace Listener

variable {ε σ : Type} (listen : Listener ε σ)

/-- What a listener answers to an event, and the state that it is left in. -/
def answer (event : ε) (s : σ) : Except Fault Unit × σ :=
  match listen event s with
  | .ok () s => (.ok (), s)
  | .error e s => (.error e, s)

/-- The state after some events, whichever of them have been refused. -/
def after (s : σ) : List ε → σ
  | [] => s
  | event :: events => after (listen.answer event s).2 events

/-- The answers to some events. -/
def answers (s : σ) : List ε → List (Except Fault Unit)
  | [] => []
  | event :: events => (listen.answer event s).1 :: answers (listen.answer event s).2 events

variable {listen}

/-- Where no event is refused, the state is the one after all of them. -/
theorem after_of_deliver {events : List ε} {s s' : σ}
    (h : Trace.deliver listen events s = .ok () s') : listen.after s events = s' := by
  induction events generalizing s with
  | nil =>
    cases h
    rfl
  | cons event events ih =>
    simp only [Trace.deliver] at h
    rw [after, answer]
    cases hevent : listen event s with
    | error e s'' =>
      rw [hevent] at h
      cases h
    | ok u s'' =>
      rw [hevent] at h
      exact ih h

/-- A walk that is heard out leaves the listener where its events have led it. -/
theorem after_of_outcomeFrom {α : Type} {t : Trace ε α} {s s' : σ} {a : α}
    (h : Trace.outcomeFrom listen s t = .ok (a, s')) : listen.after s t.events = s' := by
  have hrun := Trace.outcomeFrom_eq_ok_iff.1 h
  unfold Trace.run at hrun
  split at hrun
  · cases hrun
  · rename_i s'' hdeliver
    rw [after_of_deliver hdeliver]
    split at hrun <;> cases hrun
    rfl

end Listener

/-! ### Bracketed events -/

open Image (Frame)

/-- What can be done to the frames that are open. -/
inductive Turn where
  | opens (f : Frame)
  | closes (f : Frame)
  | keeps
  deriving DecidableEq, Repr

/-- What an event is for the frames that are open. -/
def ValueEvent.turn : ValueEvent → Turn
  | .beginRecord field _ _ => .opens (.record field)
  | .endRecord field => .closes (.record field)
  | .beginArray field _ _ _ => .opens (.array field)
  | .endArray field => .closes (.array field)
  | .primitive .. | .primitives .. | .emptyComposite .. => .keeps

/-- Whether an event is an end. -/
def ValueEvent.isEnd (event : ValueEvent) : Bool :=
  match event.turn with
  | .closes _ => true
  | .opens _ | .keeps => false

/-- Whether every end closes what has been opened last, under the name under which it was opened,
and nothing stays open. -/
inductive Bracketed : List ValueEvent → Prop
  | nil : Bracketed []
  | keep {event : ValueEvent} {rest : List ValueEvent} (turn : event.turn = .keeps)
      (bracketed_rest : Bracketed rest) : Bracketed (event :: rest)
  | block {first last : ValueEvent} {inner rest : List ValueEvent} {f : Frame}
      (opens : first.turn = .opens f) (bracketed_inner : Bracketed inner)
      (closes : last.turn = .closes f) (bracketed_rest : Bracketed rest) :
      Bracketed (first :: inner ++ last :: rest)

/-- Whether events close just the frames that are open, innermost first, and what they open
themselves. -/
inductive Closes : List Frame → List ValueEvent → Prop
  | nil : Closes [] []
  | keep {frames : List Frame} {event : ValueEvent} {rest : List ValueEvent}
      (turn : event.turn = .keeps) (closes_rest : Closes frames rest) :
      Closes frames (event :: rest)
  | opens {frames : List Frame} {event : ValueEvent} {rest : List ValueEvent} {f : Frame}
      (turn : event.turn = .opens f) (closes_rest : Closes (f :: frames) rest) :
      Closes frames (event :: rest)
  | closes {frames : List Frame} {event : ValueEvent} {rest : List ValueEvent} {f : Frame}
      (turn : event.turn = .closes f) (closes_rest : Closes frames rest) :
      Closes (f :: frames) (event :: rest)

/-- Whether events are an end for each of the frames that are open, innermost first, with bracketed
events before, between and behind them. -/
inductive Unwinds : List Frame → List ValueEvent → Prop
  | nil {events : List ValueEvent} (bracketed : Bracketed events) : Unwinds [] events
  | cons {frames : List Frame} {inner rest : List ValueEvent} {last : ValueEvent} {f : Frame}
      (bracketed_inner : Bracketed inner) (closes : last.turn = .closes f)
      (unwinds_rest : Unwinds frames rest) : Unwinds (f :: frames) (inner ++ last :: rest)

section

variable {frames : List Frame} {event : ValueEvent} {events inner rest : List ValueEvent}
  {f : Frame}

/-- Events that open and close nothing may be left out. -/
theorem closes_keep_iff (turn : event.turn = .keeps) :
    Closes frames (event :: events) ↔ Closes frames events := by
  refine ⟨fun h ↦ ?_, .keep turn⟩
  cases h with
  | keep _ hrest => exact hrest
  | opens turn' _ | closes turn' _ => cases turn.symm.trans turn'

/-- An event that opens a frame is one with the frame on the stack. -/
theorem closes_opens_iff (turn : event.turn = .opens f) :
    Closes frames (event :: events) ↔ Closes (f :: frames) events := by
  refine ⟨fun h ↦ ?_, .opens turn⟩
  cases h with
  | opens turn' hrest =>
    cases turn.symm.trans turn'
    exact hrest
  | keep turn' _ | closes turn' _ => cases turn.symm.trans turn'

/-- An event that closes a frame has to find it innermost. -/
theorem closes_closes_iff (turn : event.turn = .closes f) :
    Closes frames (event :: events) ↔ frames.head? = some f ∧ Closes frames.tail events := by
  constructor
  · intro h
    cases h with
    | closes turn' hrest =>
      cases turn.symm.trans turn'
      exact ⟨rfl, hrest⟩
    | keep turn' _ | opens turn' _ => cases turn.symm.trans turn'
  · rintro ⟨hhead, hrest⟩
    obtain ⟨outer, rfl⟩ := List.head?_eq_some_iff.1 hhead
    exact .closes turn hrest

/-- Bracketed events leave the frames as they are. -/
theorem Bracketed.closes_append (h : Bracketed inner) (hrest : Closes frames rest) :
    Closes frames (inner ++ rest) := by
  induction h generalizing frames rest with
  | nil => exact hrest
  | keep turn _ ih => exact .keep turn (ih hrest)
  | block opens _ closes _ ihinner ihrest =>
    rw [List.append_assoc]
    exact .opens opens (ihinner (.closes closes (ihrest hrest)))

/-- What comes first belongs to the innermost frame, or to none if there is none. -/
theorem Unwinds.keep (turn : event.turn = .keeps) (h : Unwinds frames events) :
    Unwinds frames (event :: events) := by
  cases h with
  | nil hevents => exact .nil (.keep turn hevents)
  | cons hinner closes hrest => exact .cons (.keep turn hinner) closes hrest

/-- An event that opens the innermost frame makes a block of what closes it. -/
theorem Unwinds.opens (turn : event.turn = .opens f) (h : Unwinds (f :: frames) events) :
    Unwinds frames (event :: events) := by
  cases h with
  | cons hinner closes hrest =>
    cases hrest with
    | nil hrest => exact .nil (.block turn hinner closes hrest)
    | @cons _ inner' rest' last' _ hinner' closes' hrest' =>
      have hblock := Bracketed.block turn hinner closes hinner'
      have hend := Unwinds.cons hblock closes' hrest'
      rwa [List.append_assoc] at hend

/-- What closes all frames closes them one by one from the inside. -/
theorem Closes.unwinds (h : Closes frames events) : Unwinds frames events := by
  induction h with
  | nil => exact .nil .nil
  | keep turn _ ih => exact ih.keep turn
  | opens turn _ ih => exact ih.opens turn
  | closes turn _ ih => exact .cons .nil turn ih

/-- **The grammar of brackets** is what a stack of frames accepts. -/
theorem closes_nil_iff : Closes [] events ↔ Bracketed events := by
  constructor
  · intro h
    cases h.unwinds with
    | nil bracketed => exact bracketed
  · intro h
    rw [← List.append_nil events]
    exact h.closes_append .nil

end

/-! ### The writer -/

namespace Image

namespace Writer

variable {d : Dictionary} {event : ValueEvent} {events : List ValueEvent} {f : Frame}
  {w : Writer}

/-- What an event writes on its own. -/
def alone (d : Dictionary) (event : ValueEvent) : List UInt8 :=
  ((listener d).answer event empty).2.bytes

/-- A step that does nothing but append bytes, the same to every writer, and answers always the
same. -/
def Appends (step : EStateM Fault Writer Unit) (result : Except Fault Unit) (bs : List UInt8) :
    Prop :=
  ∀ w, step w =
    match result with
    | .ok () => .ok () (w.write bs)
    | .error e => .error e (w.write bs)

theorem appends_error (e : Fault) : Appends (fun w ↦ .error e w) (.error e) [] := by
  intro w
  rw [write_nil]

/-- An append writes its bytes or nothing, whatever the writer has. -/
theorem exists_appends_append (out : Except Fault (List UInt8)) :
    ∃ result bs, Appends (append out) result bs := by
  cases out with
  | ok bs => exact ⟨.ok (), bs, fun _ ↦ rfl⟩
  | error e => exact ⟨.error e, [], appends_error e⟩

/-- Two appends write one after the other, and the second only if the first has not failed. -/
theorem exists_appends_bind {step : EStateM Fault Writer Unit}
    {next : Unit → EStateM Fault Writer Unit} (h : ∃ result bs, Appends step result bs)
    (hnext : ∃ result bs, Appends (next ()) result bs) :
    ∃ result bs, Appends (step >>= next) result bs := by
  obtain ⟨result, bs, h⟩ := h
  obtain ⟨result', bs', hnext⟩ := hnext
  have hbind : ∀ w, (step >>= next) w = EStateM.bind step next w := fun _ ↦ rfl
  cases result with
  | ok u =>
    refine ⟨result', bs ++ bs', fun w ↦ ?_⟩
    rw [hbind, EStateM.bind, h, write_append]
    exact hnext (w.write bs)
  | error e =>
    refine ⟨.error e, bs, fun w ↦ ?_⟩
    rw [hbind, EStateM.bind, h]

theorem exists_appends_appendPrimitives (field : String) (k : Kind) (vs : List Value) :
    ∃ result bs, Appends (appendPrimitives field k vs) result bs := by
  induction vs with
  | nil => exact ⟨.ok (), [], fun w ↦ by rw [write_nil]; rfl⟩
  | cons v vs ih =>
    rw [appendPrimitives_cons]
    exact exists_appends_bind (exists_appends_append _) ih

/-- What an event writes does not depend on what has been written. -/
theorem Appends.answer {result : Except Fault Unit} {bs : List UInt8}
    (h : Appends (listener d event) result bs) (w : Writer) :
    (listener d).answer event w = (result, w.write bs) := by
  unfold Listener.answer
  rw [h]
  cases result <;> rfl

/-- **An event that keeps the frames** appends its bytes, whatever the answer is. -/
theorem exists_answer_keeps (d : Dictionary) (h : event.turn = .keeps) :
    ∃ result, ∀ w, (listener d).answer event w = (result, w.write (alone d event)) := by
  have happends : ∃ result bs, Appends (listener d event) result bs := by
    cases event with
    | primitive field k v => exact exists_appends_append _
    | primitives field k vs =>
      exact exists_appends_bind (exists_appends_append _) (exists_appends_appendPrimitives ..)
    | emptyComposite field t => exact ⟨_, [], appends_error _⟩
    | _ => cases h
  obtain ⟨result, bs, happends⟩ := happends
  refine ⟨result, fun w ↦ ?_⟩
  rw [alone, happends.answer, happends.answer, bytes_write, bytes_empty, List.nil_append]

/-- **An event that opens a frame** appends its bytes and opens it, or does nothing. -/
theorem answer_opens (d : Dictionary) (h : event.turn = .opens f) :
    (∀ w, (listener d).answer event w =
      (.ok (), { w.write (alone d event) with frames := f :: w.frames })) ∨
    ∃ e, ∀ w, (listener d).answer event w = (.error e, w) := by
  -- what is appended does not depend on the writer, so it is what is appended to nothing
  have hopens : (∃ bs, ∀ w, (listener d).answer event w =
      (.ok (), { w.write bs with frames := f :: w.frames })) ∨
        ∃ e, ∀ w, (listener d).answer event w = (.error e, w) := by
    cases event with
    | beginRecord field declared t =>
      cases h
      cases hcheck : checkType d field declared t with
      | ok u =>
        refine .inl ⟨[], fun w ↦ ?_⟩
        rw [write_nil]
        simp only [Listener.answer, listener, hcheck, openFrame]
      | error e => exact .inr ⟨e, fun w ↦ by simp only [Listener.answer, listener, hcheck]⟩
    | beginArray field element dims length =>
      cases h
      have hlistener : listener d (.beginArray field element dims length) =
          (append (lengthBytes length) >>= fun _ ↦ openFrame (.array field)) := rfl
      cases hlength : lengthBytes length with
      | ok bs =>
        refine .inl ⟨bs, fun w ↦ ?_⟩
        rw [Listener.answer, hlistener, hlength]
        rfl
      | error e =>
        refine .inr ⟨e, fun w ↦ ?_⟩
        rw [Listener.answer, hlistener, hlength]
        rfl
    | _ => cases h
  refine hopens.imp_left ?_
  rintro ⟨bs, hanswer⟩
  have halone : alone d event = bs := by
    rw [alone, hanswer]
    exact (bytes_write empty bs).trans (List.nil_append bs)
  rwa [halone]

/-- **An end** closes the innermost frame, and is accepted if that is its own. -/
theorem answer_closes (d : Dictionary) (h : event.turn = .closes f) (w : Writer) :
    ((listener d).answer event w).2 = { w with frames := w.frames.tail } ∧
      (((listener d).answer event w).1 = .ok () ↔ w.frames.head? = some f) := by
  have hevent : listener d event = closeFrame f := by
    cases event with
    | endRecord field | endArray field =>
      cases h
      rfl
    | _ => cases h
  obtain ⟨sink, frames⟩ := w
  unfold Listener.answer
  rw [hevent, closeFrame]
  cases frames with
  | nil => simp
  | cons g gs =>
    by_cases hg : g = f <;> simp [hg]

/-! ### Bytes and frames after some events -/

/-- **Each event** adds the bytes that it adds alone. -/
theorem bytes_answer (d : Dictionary) (event : ValueEvent) (w : Writer) :
    ((listener d).answer event w).2.bytes = w.bytes ++ alone d event := by
  -- nothing is appended by an event that leaves a writer with the same bytes
  have hsilent (h : ∀ w, ((listener d).answer event w).2.bytes = w.bytes) :
      ((listener d).answer event w).2.bytes = w.bytes ++ alone d event := by
    rw [h, alone, h, bytes_empty, List.append_nil]
  cases hturn : event.turn with
  | keeps =>
    obtain ⟨result, hanswer⟩ := exists_answer_keeps d hturn
    rw [hanswer, bytes_write]
  | opens f =>
    obtain hanswer | ⟨e, hanswer⟩ := answer_opens d hturn
    · rw [hanswer]
      exact bytes_write w _
    · exact hsilent fun w ↦ by rw [hanswer]
  | closes f => exact hsilent fun w ↦ by rw [(answer_closes d hturn w).1]; rfl

/-- **Bytes do not depend on brackets**: every event appends what it writes on its own, whether or
not it is accepted. -/
theorem bytes_after (d : Dictionary) (w : Writer) (events : List ValueEvent) :
    ((listener d).after w events).bytes = w.bytes ++ events.flatMap (alone d) := by
  induction events generalizing w with
  | nil => exact (List.append_nil _).symm
  | cons event events ih =>
    rw [Listener.after, ih, bytes_answer, List.flatMap_cons, List.append_assoc]

/-- The writer is finished with no frame open. -/
theorem finish_eq_ok_iff {bs : List UInt8} :
    w.finish = .ok bs ↔ w.frames = [] ∧ w.bytes = bs := by
  unfold finish
  cases w.frames <;> simp

/-- **The frames accept what closes them**, if no event is refused but ends. -/
theorem accepts_iff_closes
    (h : ∀ x ∈ events.zip ((listener d).answers w events), x.1.isEnd = false → x.2 = .ok ()) :
    ((∀ a ∈ (listener d).answers w events, a = .ok ()) ∧ ((listener d).after w events).frames = [])
      ↔ Closes w.frames events := by
  induction events generalizing w with
  | nil =>
    refine ⟨fun hnil ↦ hnil.2 ▸ .nil, fun hcloses ↦ ⟨fun _ h ↦ absurd h List.not_mem_nil, ?_⟩⟩
    -- the writer's frames are an index of the relation
    generalize hframes : w.frames = frames at hcloses
    cases hcloses
    exact hframes
  | cons event events ih =>
    rw [Listener.answers, List.zip_cons_cons, List.forall_mem_cons] at h
    obtain ⟨hevent, hevents⟩ := h
    replace hevent : event.isEnd = false → ((listener d).answer event w).1 = .ok () := hevent
    rw [Listener.answers, Listener.after, List.forall_mem_cons, and_assoc, ih hevents]
    cases hturn : event.turn with
    | keeps =>
      obtain ⟨result, hanswer⟩ := exists_answer_keeps d hturn
      have hok := hevent (by rw [ValueEvent.isEnd, hturn])
      rw [closes_keep_iff hturn, hok, hanswer, eq_self, true_and]
      rfl
    | opens f =>
      have hok := hevent (by rw [ValueEvent.isEnd, hturn])
      -- only an end may be refused, so this one was not
      obtain hanswer | ⟨e, hanswer⟩ := answer_opens d hturn
      · rw [closes_opens_iff hturn, hanswer, eq_self, true_and]
      · rw [hanswer] at hok
        cases hok
    | closes f =>
      obtain ⟨hstate, hresult⟩ := answer_closes d hturn w
      rw [closes_closes_iff hturn, hstate, hresult]

/-- **What a writer accepts** of events that it refuses only where they are ends: just those that
are well bracketed. The bytes are then those of the events one after the other. -/
theorem closes_iff_bracketed
    (h : ∀ x ∈ events.zip ((listener d).answers empty events), x.1.isEnd = false → x.2 = .ok ()) :
    ((∀ a ∈ (listener d).answers empty events, a = .ok ()) ∧
        (∃ bs, ((listener d).after empty events).finish = .ok bs) ↔ Bracketed events) ∧
      (Bracketed events →
        ((listener d).after empty events).finish = .ok (events.flatMap (alone d))) := by
  have hfinish (bs : List UInt8) : ((listener d).after empty events).finish = .ok bs ↔
      ((listener d).after empty events).frames = [] ∧ events.flatMap (alone d) = bs := by
    rw [finish_eq_ok_iff, bytes_after, bytes_empty, List.nil_append]
  have haccepts := (accepts_iff_closes h).trans closes_nil_iff
  refine ⟨?_, fun hbracketed ↦ (hfinish _).2 ⟨(haccepts.2 hbracketed).2, rfl⟩⟩
  simp only [hfinish, exists_and_left, exists_eq', and_true]
  exact haccepts

/-- A box has rows of numbers. -/
def boxType : TypeDef :=
  ⟨"Box", [⟨"rows", "short", 2, false⟩]⟩

def boxDictionary : Dictionary :=
  ⟨#[⟨12, "Box", [⟨"rows", 3, 2⟩]⟩], 12⟩

/-- A box with two rows, of which the second is empty, in an array that is closed under the name
`last`. -/
def boxEvents (last : String) : List ValueEvent :=
  [.beginRecord none "Box" boxType, .beginArray "rows" (.primitive .short) 2 2,
    .primitives "rows" .short [.short 3, .short 4], .primitives "rows" .short [],
    .endArray last, .endRecord none]

theorem closes_iff_bracketed_box :
    (listener boxDictionary).answers empty (boxEvents "rows") = List.replicate 6 (.ok ()) ∧
      Bracketed (boxEvents "rows") ∧
      ((listener boxDictionary).after empty (boxEvents "rows")).finish =
        .ok [2, 0, 0, 0, 2, 0, 0, 0, 3, 0, 4, 0, 0, 0, 0, 0] ∧
      ¬Bracketed (boxEvents "row") := by
  have hanswers : (listener boxDictionary).answers empty (boxEvents "rows") =
      List.replicate 6 (.ok ()) := by
    cbv
  have hanswers' : (listener boxDictionary).answers empty (boxEvents "row") =
      List.replicate 4 (.ok ()) ++
        [.error (.frameMismatch "array 'row'" "array 'rows'"), .ok ()] := by
    cbv
  have hbytes : (boxEvents "rows").flatMap (alone boxDictionary) =
      [2, 0, 0, 0, 2, 0, 0, 0, 3, 0, 4, 0, 0, 0, 0, 0] := by
    cbv
  have hrows : Bracketed (boxEvents "rows").tail.dropLast :=
    @Bracketed.block _ _ [_, _] [] _ rfl (.keep rfl (.keep rfl .nil)) rfl .nil
  have hbracketed : Bracketed (boxEvents "rows") := @Bracketed.block _ _ _ [] _ rfl hrows rfl .nil
  obtain ⟨-, hfinish⟩ := @closes_iff_bracketed boxDictionary (boxEvents "rows") (by
    rw [hanswers]
    decide)
  obtain ⟨haccepts, -⟩ := @closes_iff_bracketed boxDictionary (boxEvents "row") (by
    rw [hanswers']
    decide)
  refine ⟨hanswers, hbracketed, hbytes ▸ hfinish hbracketed, fun h ↦ ?_⟩
  have hok := (haccepts.2 h).1
  rw [hanswers'] at hok
  cases hok (.error _) (List.mem_append_right _ List.mem_cons_self)

end Writer

end Image

end GraphCodec
