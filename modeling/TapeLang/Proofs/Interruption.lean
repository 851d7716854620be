import TapeLang.Interpretation
import TapeLang.Proofs.Machine.Coupling
import TapeLang.Proofs.Stream.Interruption

namespace TapeLang

namespace Device

variable {i : Option Instruction} {d w d' : Device} {f : Except Failure Unit} {n k : Nat}

theorem Effect.delayed_input {s : Source} (he : Effect i d f d') (hs : d.input.Delayed n s) :
    ∃ s', Effect i (d.withInput s) f (d'.withInput s') ∧ d'.input.Delayed n s' := by
  rcases he.reads_or_ignores with ⟨hd, hsame⟩ | ⟨r, hr, -, hsame⟩
  · exact ⟨s, hsame s, hd ▸ hs⟩
  · obtain ⟨s', hs', hdelayed⟩ := hs.readByte hr
    exact ⟨s', hsame s s' hs', hdelayed⟩

theorem Effect.delayed_output {s : Sink} (he : Effect i d f d') (hs : d.output.Delayed n s) :
    ∃ s', Effect i (d.withOutput s) f (d'.withOutput s') ∧ d'.output.Delayed n s' := by
  rcases he.writes_or_ignores with ⟨hd, hsame⟩ | ⟨r, hr, hsame⟩
  · exact ⟨s, hsame s, hd ▸ hs⟩
  · obtain ⟨s', hs', hdelayed⟩ := hs.writeByte hr
    exact ⟨s', hsame s s' hs', hdelayed⟩

def Delayed (n k : Nat) (d w : Device) : Prop :=
  w = (d.withInput w.input).withOutput w.output ∧ d.input.Delayed n w.input ∧
    d.output.Delayed k w.output

theorem Delayed.cell_eq (h : Delayed n k d w) : w.cell = d.cell := by
  rw [h.1]
  rfl

theorem Delayed.effect (h : Delayed n k d w) (he : Effect i d f d') :
    ∃ w', Effect i w f w' ∧ Delayed n k d' w' := by
  obtain ⟨hw, hin, hout⟩ := h
  obtain ⟨input, he', hin'⟩ := he.delayed_input hin
  obtain ⟨output, he'', hout'⟩ := he'.delayed_output hout
  rw [hw]
  exact ⟨(d'.withInput input).withOutput output, he'', rfl, hin', hout'⟩

end Device

namespace Machine

def delaying (n k : Nat) : Coupling :=
  .tight (Device.Delayed n k) Device.Delayed.cell_eq Device.Delayed.effect

structure Delays (n k : Nat) (m w : Machine) : Prop where
  frame : w = { m with
    device := (m.device.withInput w.device.input).withOutput w.device.output }
  stored : w.device.output.stored = m.device.output.stored
  left : w.device.input.left = m.device.input.left
  input : m.device.input.Delayed n w.device.input
  output : m.device.output.Delayed k w.device.output

variable {n k : Nat} {m w : Machine}

theorem delays_of_couples (h : (delaying n k).Couples m w) : Delays n k m w := by
  obtain ⟨hw, hd, hin, hout⟩ := h
  refine ⟨?_, hout.1, hin.left_eq, hin, hout⟩
  rw [← hd]
  exact hw

theorem couples_start (p : Program) (config : Config) {input input' : Source}
    {output output' : Sink} (hin : input.Delayed n input') (hout : output.Delayed k output') :
    (delaying n k).Couples (start p config input output) (start p config input' output') :=
  ⟨rfl, rfl, hin, hout⟩

end Machine

structure Interpretation.Delays (l n k : Nat) (first second : Interpretation) : Prop where
  result : second.result = first.result
  log : second.log = first.log
  stored : second.output.stored = first.output.stored
  sourceLeft : second.source.left = first.source.left
  inputLeft : second.input.left = first.input.left
  source : first.source.Delayed l second.source
  input : first.input.Delayed n second.input
  output : first.output.Delayed k second.output

variable {l n k : Nat} {source source' input input' : Source} {output output' : Sink}

theorem Loader.load_ofSource (s : Source) :
    (ofSource s).load = match s.drain with
      | (.error e, rest) => (.error e, ⟨rest, none, #[]⟩)
      | (.ok code, rest) =>
          (.ok ⟨code⟩, ⟨rest, some ⟨code⟩,
            #[.programLoaded code.size (Program.instructionCount ⟨code⟩)]⟩) :=
  rfl

theorem Loader.load_delayed (h : source.Delayed l source') :
    ∃ r loader rest, (ofSource source).load = (r, loader) ∧
      (ofSource source').load = (r, { loader with source := rest }) ∧
      loader.source.Delayed l rest := by
  obtain ⟨hr, hs⟩ := h.drain
  rw [load_ofSource, load_ofSource]
  cases hd : source.drain with
  | mk r s =>
      cases hd' : source'.drain with
      | mk r' s' =>
          rw [hd, hd'] at hr hs
          obtain rfl : r' = r := hr
          cases r' with
          | error => exact ⟨_, _, s', rfl, rfl, hs⟩
          | ok => exact ⟨_, _, s', rfl, rfl, hs⟩

theorem interpret_delays (fuel : Nat) (config : Config) (hsource : source.Delayed l source')
    (hin : input.Delayed n input') (hout : output.Delayed k output') :
    (interpret fuel source input output config).Delays l n k
      (interpret fuel source' input' output' config) := by
  obtain ⟨r, loader, rest, hload, hload', hrest⟩ := Loader.load_delayed hsource
  have hleft := hrest.left_eq
  rw [interpret, interpret, hload, hload']
  cases r with
  | error e => exact ⟨rfl, rfl, hout.1, hleft, hin.left_eq, hrest, hin, hout⟩
  | ok program =>
      cases hv : program.validate config.validation with
      | error e =>
          simp only [hv]
          exact ⟨rfl, rfl, hout.1, hleft, hin.left_eq, hrest, hin, hout⟩
      | ok =>
          obtain ⟨hr, hw⟩ := (Coupling.tight_faithful ..).run
            (Machine.couples_start program config hin hout) fuel
          have hlog := hw.log
          obtain ⟨-, hstored, hinput, hdin, hdout⟩ := Machine.delays_of_couples hw
          simp only [hv]
          refine ⟨?_, ?_, hstored, hleft, hinput, hrest, hdin, hdout⟩
          · rw [hr]
          · rw [hlog]

theorem interruptions_invisible (config : Config) {source source' input input' : List SourceEvent}
    {output output' : List SinkEvent} (hsource : SourceEvent.Interrupted l source source')
    (hin : SourceEvent.Interrupted n input input')
    (hout : SinkEvent.Interrupted k output output') :
    (∀ fuel, (interpret fuel (.ofEvents source) (.ofEvents input) (.ofEvents output) config).Delays
        l n k (interpret fuel (.ofEvents source') (.ofEvents input') (.ofEvents output') config)) ∧
      (∀ fuel program,
        let first := Machine.execute fuel program (.ofEvents input) (.ofEvents output)
        let second := Machine.execute fuel program (.ofEvents input') (.ofEvents output')
        second.1 = first.1 ∧ Machine.Delays n k first.2 second.2) ∧
      ∀ program calls,
        let first := Machine.start program config (.ofEvents input) (.ofEvents output)
        let second := Machine.start program config (.ofEvents input') (.ofEvents output')
        second.answers calls = first.answers calls ∧
          Machine.Delays n k (first.after calls) (second.after calls) := by
  have hinput := Source.delayed_ofEvents hin
  have houtput := Sink.delayed_ofEvents hout
  refine ⟨fun fuel => ?_, fun fuel program => ?_, fun program calls => ?_⟩
  · exact interpret_delays fuel config (Source.delayed_ofEvents hsource) hinput houtput
  · obtain ⟨hr, hw⟩ := (Coupling.tight_faithful ..).run
      (Machine.couples_start program {} hinput houtput) fuel
    exact ⟨hr, Machine.delays_of_couples hw⟩
  · obtain ⟨hr, hw⟩ := (Coupling.tight_faithful ..).answers
      (Machine.couples_start program config hinput houtput) calls
    exact ⟨hr, Machine.delays_of_couples hw⟩

theorem interruptions_invisible_echo :
    let f : Fault := ⟨.interrupted, "signal"⟩
    let source : List SourceEvent := [.data [44], .fail f, .data [46]]
    let input : List SourceEvent := [.data [7], .fail f]
    let output : List SinkEvent := [.fail f, .accept]
    SourceEvent.Interrupted 1 [.data [44, 46]] source ∧
      SourceEvent.Interrupted 1 [.data [7]] input ∧ SinkEvent.Interrupted 1 [.accept] output ∧
      let last := interpret 3 (.ofEvents source) (.ofEvents input) (.ofEvents output)
        { tapeLength := 1 }
      last.result = some (.ok ⟨2, 0, 1, 1⟩) ∧ last.output.stored = #[7] ∧ last.source.left = 0 := by
  intro f source input output
  have hsource : SourceEvent.Interrupted 1 [.data [44, 46]] source := .within rfl [] [] [44] [46]
  have hinput : SourceEvent.Interrupted 1 [.data [7]] input := .between rfl [.data [7]] []
  have houtput : SinkEvent.Interrupted 1 [.accept] output := .between rfl [] [.accept]
  obtain ⟨hinterpret, -, -⟩ := interruptions_invisible { tapeLength := 1 } hsource hinput houtput
  obtain ⟨hresult, -, hstored, hleft, -⟩ := hinterpret 3
  exact ⟨hsource, hinput, houtput, hresult, hstored, hleft⟩

end TapeLang
