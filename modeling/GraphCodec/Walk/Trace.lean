import GraphCodec.Fault

/-!
# Walks as traces of events

A walk visits a schema or a value and reports events to a listener. What it visits never depends
on the listener, so a walk is a value of its own, a `Trace`: the events in order, and the result or
the fault with which the walk ends by itself. A listener is a step function on a state. Running it
over a trace delivers the events until one is refused; only if none is, the trace's own outcome
counts. A listener that fails keeps whatever it changed before it failed.

Traces form a monad, and running one is compatible with it (`run_bind`): a listener's run over two
walks in sequence is the two runs in sequence.
-/

namespace GraphCodec

/-- The events of a walk, and how the walk ends. -/
structure Trace (ε α : Type) where
  events : List ε
  outcome : Except Fault α

/-- What a listener does at an event: a change of its state, and perhaps a refusal. -/
abbrev Listener (ε σ : Type) := ε → EStateM Fault σ Unit

/-- One step after the other succeeds exactly if each of them does. -/
theorem Listener.bind_eq_ok_iff {α β σ : Type} {x : EStateM Fault σ α} {f : α → EStateM Fault σ β}
    {s s' : σ} {b : β} :
    (x >>= f) s = .ok b s' ↔ ∃ a s'', x s = .ok a s'' ∧ f a s'' = .ok b s' := by
  show EStateM.bind x f s = .ok b s' ↔ _
  unfold EStateM.bind
  cases x s with
  | error e s'' => exact ⟨fun h ↦ (by cases h), fun ⟨_, _, h, _⟩ ↦ (by cases h)⟩
  | ok a s'' => exact ⟨fun h ↦ ⟨a, s'', rfl, h⟩, fun ⟨_, _, h, hf⟩ ↦ (by cases h; exact hf)⟩

namespace Trace

variable {ε α β σ : Type}

/-- The walk without events. -/
protected def pure (a : α) : Trace ε α :=
  ⟨[], .ok a⟩

/-- The walk `t` and, if it ends well, the one that its result determines. -/
protected def bind (t : Trace ε α) (f : α → Trace ε β) : Trace ε β :=
  match t.outcome with
  | .ok a => ⟨t.events ++ (f a).events, (f a).outcome⟩
  | .error e => ⟨t.events, .error e⟩

instance : Monad (Trace ε) where
  pure := Trace.pure
  bind := Trace.bind

/-- The walk of one event. -/
def emit (event : ε) : Trace ε Unit :=
  ⟨[event], .ok ()⟩

/-- The walk that ends at once. -/
def fail (e : Fault) : Trace ε α :=
  ⟨[], .error e⟩

/-- Add walks in order to one that has already emitted `done`. -/
def sequenceFrom (done : Array ε) : List (Trace ε Unit) → Trace ε Unit
  | [] => ⟨done.toList, .ok ()⟩
  | t :: ts =>
    match t.outcome with
    | .ok () => sequenceFrom (done ++ t.events) ts
    | .error e => ⟨(done ++ t.events).toList, .error e⟩

/-- Walks in order, up to the first that does not end well. -/
def sequence (ts : List (Trace ε Unit)) : Trace ε Unit :=
  sequenceFrom #[] ts

theorem sequenceFrom_eq (done : Array ε) (ts : List (Trace ε Unit)) :
    sequenceFrom done ts = ⟨done.toList ++ (sequence ts).events, (sequence ts).outcome⟩ := by
  unfold sequence
  induction ts generalizing done with
  | nil => simp [sequenceFrom]
  | cons t ts ih =>
    rw [sequenceFrom, sequenceFrom]
    cases ht : t.outcome with
    | error e => simp
    | ok u =>
      simp only
      rw [ih (done ++ t.events), ih (#[] ++ t.events)]
      simp

@[simp] theorem sequence_nil : sequence ([] : List (Trace ε Unit)) = pure () := rfl

@[simp] theorem sequence_cons (t : Trace ε Unit) (ts : List (Trace ε Unit)) :
    sequence (t :: ts) = t >>= fun _ ↦ sequence ts := by
  show sequence (t :: ts) = t.bind fun _ ↦ sequence ts
  rw [sequence, sequenceFrom, Trace.bind]
  cases ht : t.outcome with
  | error e => simp
  | ok u =>
    simp only
    rw [sequenceFrom_eq]
    simp

/-! ### Listening -/

/-- Deliver events until one is refused. -/
def deliver (listen : Listener ε σ) : List ε → EStateM Fault σ Unit
  | [] => fun s ↦ .ok () s
  | event :: events => fun s ↦
    match listen event s with
    | .ok () s => deliver listen events s
    | .error e s => .error e s

/-- Run a listener over a walk. -/
def run (listen : Listener ε σ) (t : Trace ε α) : EStateM Fault σ α := fun s ↦
  match deliver listen t.events s with
  | .error e s => .error e s
  | .ok () s =>
    match t.outcome with
    | .ok a => .ok a s
    | .error e => .error e s

theorem deliver_append (listen : Listener ε σ) (as bs : List ε) :
    deliver listen (as ++ bs) = (do deliver listen as; deliver listen bs) := by
  induction as with
  | nil => rfl
  | cons a as ih =>
    funext s
    change deliver listen (a :: (as ++ bs)) s =
      EStateM.bind (deliver listen (a :: as)) (fun _ ↦ deliver listen bs) s
    simp only [EStateM.bind, deliver, ih]
    cases listen a s <;> rfl

@[simp] theorem run_pure (listen : Listener ε σ) (a : α) :
    run listen (pure a : Trace ε α) = pure a := rfl

/-- **Running walks in sequence** is running them one after the other. -/
theorem run_bind (listen : Listener ε σ) (t : Trace ε α) (f : α → Trace ε β) :
    run listen (t >>= f) = (do
      let a ← run listen t
      run listen (f a)) := by
  funext s
  change run listen (t.bind f) s = EStateM.bind (run listen t) (fun a ↦ run listen (f a)) s
  cases ht : t.outcome with
  | error e =>
    simp only [run, Trace.bind, EStateM.bind, ht]
    cases deliver listen t.events s <;> rfl
  | ok a =>
    simp only [run, Trace.bind, EStateM.bind, ht, deliver_append]
    change (match EStateM.bind (deliver listen t.events) (fun _ ↦ deliver listen (f a).events) s
      with
      | .error e s => EStateM.Result.error e s
      | .ok () s =>
        match (f a).outcome with
        | .ok a => .ok a s
        | .error e => .error e s) = _
    simp only [EStateM.bind]
    cases deliver listen t.events s <;> rfl

theorem run_emit (listen : Listener ε σ) (event : ε) : run listen (emit event) = listen event := by
  funext s
  simp only [run, emit, deliver]
  cases listen event s <;> rfl

@[simp] theorem run_fail (listen : Listener ε σ) (e : Fault) (s : σ) :
    run listen (fail e : Trace ε α) s = .error e s := rfl

/-- A sequence of walks is heard to its end exactly if each of them is. -/
theorem run_bind_eq_ok_iff {listen : Listener ε σ} {t : Trace ε α} {f : α → Trace ε β} {s s' : σ}
    {b : β} : run listen (t >>= f) s = .ok b s' ↔
      ∃ a s'', run listen t s = .ok a s'' ∧ run listen (f a) s'' = .ok b s' := by
  rw [run_bind]
  exact Listener.bind_eq_ok_iff

/-- The result of a run from a given state, without the state. -/
def outcomeFrom (listen : Listener ε σ) (s : σ) (t : Trace ε α) : Except Fault (α × σ) :=
  match run listen t s with
  | .ok a s => .ok (a, s)
  | .error e _ => .error e

theorem outcomeFrom_eq_ok_iff {listen : Listener ε σ} {s s' : σ} {t : Trace ε α} {a : α} :
    outcomeFrom listen s t = .ok (a, s') ↔ run listen t s = .ok a s' := by
  unfold outcomeFrom
  cases run listen t s <;> simp

/-! ### Recording -/

/-- A listener that records every event and then asks `refuse`, with the number of the event from
1 on, whether to refuse it. -/
def recorder (refuse : Nat → ε → Option Fault) : Listener ε (Array ε) := fun event seen ↦
  match refuse (seen.size + 1) event with
  | none => .ok () (seen.push event)
  | some e => .error e (seen.push event)

/-- The events that a recorder sees of a walk, and how its run ends. -/
def record (refuse : Nat → ε → Option Fault) (t : Trace ε α) : List ε × Except Fault α :=
  match run (recorder refuse) t #[] with
  | .ok a seen => (seen.toList, .ok a)
  | .error e seen => (seen.toList, .error e)

/-- The refusal of the event with a given number, and no other. -/
def stopAt (event? : Option Nat) (number : Nat) : Option Fault :=
  if event? = some number then some (.data (.stopped number)) else none

end Trace

end GraphCodec
