import TapeLang.Program.Loader

namespace TapeLang

namespace SourceEvent

def isInterruption : SourceEvent → Bool
  | .fail f => f.isInterruption
  | _ => false

def stopsLoad : SourceEvent → Bool
  | .data _ => false
  | .claim n => n = 0
  | .fail f => !f.isInterruption

/-- A report of a byte that was not given leaves the zero of the fresh buffer. -/
def loaded : SourceEvent → List UInt8
  | .data bytes => bytes
  | .claim n => if n = 0 then [] else [0]
  | .fail _ => []

def loadCalls (e : SourceEvent) : Nat :=
  e.loaded.length + if e.isInterruption then 1 else 0

end SourceEvent

/-- What one load takes from a stream: the events it reads past, and the failure at which it
stops, unless it stops at the end. -/
structure Segment where
  passed : List SourceEvent
  fault? : Option Fault
  deriving DecidableEq, Repr

namespace Segment

def bytes (g : Segment) : List UInt8 :=
  g.passed.flatMap SourceEvent.loaded

def calls (g : Segment) : Nat :=
  g.bytes.length + g.passed.countP SourceEvent.isInterruption + 1

def outcome (before : List UInt8) (g : Segment) : Except LoadError (Array UInt8) :=
  match g.fault? with
  | none => .ok (before ++ g.bytes).toArray
  | some f => .error ⟨(before ++ g.bytes).length, f⟩

def result (g : Segment) : Except LoadError Program :=
  match g.fault? with
  | none => .ok (.ofList g.bytes)
  | some f => .error ⟨g.bytes.length, f⟩

inductive Stop : Option Fault → List SourceEvent → List SourceEvent → Prop
  | exhausted : Stop none [] []
  | reported (rest : List SourceEvent) : Stop none (.claim 0 :: rest) rest
  | failed {f : Fault} (hf : f.isInterruption = false) (rest : List SourceEvent) :
      Stop (some f) (.fail f :: rest) rest

structure Spans (g : Segment) (s s' : Source) : Prop where
  passes : ∀ e ∈ g.passed, e.stopsLoad = false
  stops : ∃ stop, s.events = g.passed ++ stop ∧ Stop g.fault? stop s'.events
  calls : s'.calls = s.calls + g.calls

variable {g : Segment} {s s' : Source}

theorem Stop.loaded_eq {fault? : Option Fault} {stop rest : List SourceEvent}
    (h : Stop fault? stop rest) :
    stop.flatMap SourceEvent.loaded = rest.flatMap SourceEvent.loaded := by
  cases h <;> simp [SourceEvent.loaded]

theorem Spans.loaded_eq (h : g.Spans s s') :
    s.events.flatMap SourceEvent.loaded = g.bytes ++ s'.events.flatMap SourceEvent.loaded := by
  obtain ⟨stop, hs, hstop⟩ := h.stops
  rw [hs, List.flatMap_append, hstop.loaded_eq, bytes]

theorem Spans.calls_lt (h : g.Spans s s') : s.calls < s'.calls := by
  rw [h.calls, Segment.calls]
  omega

theorem spans_stop {fault? : Option Fault} {stop rest : List SourceEvent}
    (h : Stop fault? stop rest) (calls : Nat) :
    (⟨[], fault?⟩ : Segment).Spans ⟨stop, calls⟩ ⟨rest, calls + 1⟩ :=
  ⟨nofun, ⟨stop, rfl, h⟩, rfl⟩

theorem Spans.cons {e : SourceEvent} {events : List SourceEvent} {calls : Nat}
    (he : e.stopsLoad = false) (h : g.Spans ⟨events, calls + e.loadCalls⟩ s') :
    (⟨e :: g.passed, g.fault?⟩ : Segment).Spans ⟨e :: events, calls⟩ s' := by
  obtain ⟨stop, hs, hstop⟩ := h.stops
  refine ⟨?_, ⟨stop, congrArg (e :: ·) hs, hstop⟩, ?_⟩
  · intro e' he'
    rcases List.mem_cons.1 he' with rfl | he'
    · exact he
    · exact h.passes e' he'
  · rw [h.calls]
    simp only [Segment.calls, bytes, SourceEvent.loadCalls, List.flatMap_cons, List.length_append,
      List.countP_cons]
    omega

inductive Chain : Source → List Segment → Source → Prop
  | nil (s : Source) : Chain s [] s
  | cons {g : Segment} {gs : List Segment} {s s₁ s' : Source} (hg : g.Spans s s₁)
      (hc : Chain s₁ gs s') : Chain s (g :: gs) s'

theorem Chain.loaded_eq {gs : List Segment} (h : Chain s gs s') :
    s.events.flatMap SourceEvent.loaded =
      gs.flatMap Segment.bytes ++ s'.events.flatMap SourceEvent.loaded := by
  induction h with
  | nil => rfl
  | cons hg _ ih => rw [hg.loaded_eq, ih, List.flatMap_cons, List.append_assoc]

theorem Chain.calls_eq {gs : List Segment} (h : Chain s gs s') :
    s'.calls = s.calls + ((gs.flatMap Segment.bytes).length +
      (gs.flatMap Segment.passed).countP SourceEvent.isInterruption + gs.length) := by
  induction h with
  | nil => rfl
  | cons hg _ ih =>
      rw [ih, hg.calls]
      simp only [Segment.calls, List.flatMap_cons, List.length_append, List.countP_append,
        List.length_cons]
      omega

theorem outcome_cons (before : List UInt8) (e : SourceEvent) (g : Segment) :
    outcome before ⟨e :: g.passed, g.fault?⟩ = g.outcome (before ++ e.loaded) := by
  simp only [outcome, bytes, List.flatMap_cons, List.append_assoc]

theorem outcome_stop (code : Array UInt8) (fault? : Option Fault) :
    outcome code.toList ⟨[], fault?⟩ =
      match fault? with
      | none => .ok code
      | some f => .error ⟨code.size, f⟩ := by
  cases fault? <;> simp [outcome, bytes]

end Segment

namespace Source

theorem exists_segment_of_drainAfter (code : Array UInt8) (calls : Nat)
    (events : List SourceEvent) :
    ∃ g : Segment, g.Spans ⟨events, calls⟩ (drainAfter code calls events).2 ∧
      (drainAfter code calls events).1 = g.outcome code.toList := by
  induction events generalizing code calls with
  | nil =>
      exact ⟨_, Segment.spans_stop .exhausted calls, (Segment.outcome_stop code none).symm⟩
  | cons e rest ih =>
      -- An event that is read past lengthens the segment of those after it.
      have pass (he : e.stopsLoad = false)
          (hd : drainAfter code calls (e :: rest) =
            drainAfter (code.appendList e.loaded) (calls + e.loadCalls) rest) :
          ∃ g : Segment, g.Spans ⟨e :: rest, calls⟩ (drainAfter code calls (e :: rest)).2 ∧
            (drainAfter code calls (e :: rest)).1 = g.outcome code.toList := by
        obtain ⟨g, hg, ho⟩ := ih (code.appendList e.loaded) (calls + e.loadCalls)
        refine ⟨⟨e :: g.passed, g.fault?⟩, ?_, ?_⟩
        · rw [hd]
          exact hg.cons he
        · rw [hd, ho, Segment.outcome_cons, Array.appendList_eq_append, Array.toList_appendList]
      match e with
      | .data bytes => exact pass rfl rfl
      | .claim 0 =>
          exact ⟨_, Segment.spans_stop (.reported rest) calls,
            (Segment.outcome_stop code none).symm⟩
      | .claim (_ + 1) => exact pass rfl rfl
      | .fail f =>
          cases hf : f.isInterruption with
          | true =>
              apply pass
              · simp [SourceEvent.stopsLoad, hf]
              · simp [drainAfter, SourceEvent.loaded, SourceEvent.loadCalls,
                  SourceEvent.isInterruption, hf]
          | false =>
              have hd : drainAfter code calls (.fail f :: rest) =
                  (.error ⟨code.size, f⟩, ⟨rest, calls + 1⟩) := by
                simp [drainAfter, hf]
              rw [hd]
              exact ⟨_, Segment.spans_stop (.failed hf rest) calls,
                (Segment.outcome_stop code (some f)).symm⟩

theorem exists_segment_of_drain (s : Source) :
    ∃ g : Segment, g.Spans s s.drain.2 ∧ s.drain.1 = g.outcome [] :=
  exists_segment_of_drainAfter #[] s.calls s.events

end Source

end TapeLang
