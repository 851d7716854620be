import TapeLang.Command.Run
import TapeLang.Proofs.Machine.Handover

namespace TapeLang.Command

open Machine

structure Terminal where
  stdin : List UInt8
  output : List UInt8
  notices : List Notice

namespace Terminal

def ask : StateM Terminal (List UInt8) :=
  fun t => (t.stdin.take 1, { t with stdin := t.stdin.drop 1 })

def after (t : Terminal) (o : Outcome) : Terminal :=
  { t with output := t.output ++ o.output, notices := t.notices ++ o.notices }

def present (o : Outcome) : StateM Terminal Unit :=
  fun t => ((), t.after o)

def close (t : Terminal) (o : Outcome) : Outcome :=
  ⟨t.output ++ o.output, t.notices ++ o.notices, o.failure⟩

def ahead (asks : Bool) (t : Terminal) : List UInt8 :=
  if asks then t.stdin else []

theorem exists_answer (asks : Bool) (t : Terminal) :
    ∃ t', (if asks then ask else pure []) t = ((t.ahead asks).take 1, t') ∧
      t'.ahead asks = (t.ahead asks).drop 1 ∧ t'.output = t.output ∧ t'.notices = t.notices := by
  cases asks with
  | true => exact ⟨_, rfl, rfl, rfl, rfl⟩
  | false => exact ⟨t, rfl, rfl, rfl, rfl⟩

end Terminal

namespace PreparedRun

theorem left_of_awaitsInput {r : PreparedRun} (h : r.awaitsInput = true) :
    r.machine.device.input.left = 0 := by
  rw [awaitsInput, Bool.and_eq_true, decide_eq_true_eq] at h
  exact h.2

/-- The run `w`, which has its input at once and shows nothing yet, stands where `r` stands. -/
structure Trails (ahead : List UInt8) (t : Terminal) (r w : PreparedRun) : Prop where
  file_eq : w.file = r.file
  stats_eq : w.stats = r.stats
  coupled : ∃ past stored, (handover ahead stored).Couples (r.machine.withPast past) w.machine ∧
    stored.toList = t.output ∧ w.notices ++ past.toList.map .event = t.notices ++ r.notices

namespace Trails

variable {ahead : List UInt8} {t t' : Terminal} {r w : PreparedRun}

theorem congr (h : Trails ahead t r w) (ho : t'.output = t.output)
    (hn : t'.notices = t.notices) : Trails ahead t' r w := by
  obtain ⟨hfile, hstats, past, stored, hc, hstored, hnotices⟩ := h
  exact ⟨hfile, hstats, past, stored, hc, hstored.trans ho.symm, hn ▸ hnotices⟩

theorem cleared (h : Trails ahead t r w) : Trails ahead (t.after r.shown) r.cleared w := by
  obtain ⟨hfile, hstats, past, stored, ⟨hframe, hdevice, hin⟩, hstored, hnotices⟩ := h
  refine ⟨hfile, hstats, past ++ r.machine.log, stored ++ r.machine.device.output.stored,
    ⟨?_, ?_, hin⟩, ?_, ?_⟩
  · rw [hframe]
    simp [PreparedRun.cleared, withPast]
  · rw [hdevice]
    simp [PreparedRun.cleared, Machine.withPast, Sink.withPast]
  · rw [Array.toList_append, hstored]
    rfl
  · rw [Array.toList_append, List.map_append, ← List.append_assoc, hnotices]
    simp [PreparedRun.shown, PreparedRun.cleared, Terminal.after]

theorem given (h : Trails ahead t r w) (hr : r.awaitsInput = true) :
    Trails (ahead.drop 1) t (r.given (ahead.take 1)) w ∧
      (ahead.drop 1 = [] ∨ (r.given (ahead.take 1)).awaitsInput = false) := by
  cases ahead with
  | nil => exact ⟨h, .inl rfl⟩
  | cons b ahead =>
      obtain ⟨hfile, hstats, past, stored, ⟨hframe, hdevice, hin⟩, hrest⟩ := h
      refine ⟨⟨hfile, hstats, past, stored, ⟨hframe, hdevice, ?_⟩, hrest⟩, .inr ?_⟩
      · exact hin.refill (left_of_awaitsInput hr)
      · rw [Bool.eq_false_iff]
        intro hagain
        cases left_of_awaitsInput hagain

theorem close_conclude (h : Trails ahead t r w) (result : Except ExecutionError RunStats) :
    t.close (r.conclude result) = w.conclude result := by
  obtain ⟨hfile, hstats, past, stored, ⟨hframe, hdevice, -⟩, hstored, hnotices⟩ := h
  have hlog : w.machine.log = past ++ r.machine.log := by rw [hframe]; rfl
  have hcounters : w.machine.stats = r.machine.stats := by rw [hframe]; rfl
  have hip : w.machine.ip = r.machine.ip := by rw [hframe]; rfl
  have hpointer : w.machine.device.tape.pointer = r.machine.device.tape.pointer := by
    rw [hdevice]
    rfl
  have houtput : w.machine.device.output.stored.toList =
      t.output ++ r.machine.device.output.stored.toList := by
    rw [hdevice, ← hstored, ← Array.toList_append]
    rfl
  have hshown : w.notices ++ w.machine.log.toList.map .event =
      t.notices ++ (r.notices ++ r.machine.log.toList.map .event) := by
    rw [hlog, Array.toList_append, List.map_append, ← List.append_assoc, hnotices,
      List.append_assoc]
  cases result <;>
    simp only [conclude, Terminal.close, hfile, hstats, houtput, hshown, hcounters, hip, hpointer,
      List.append_assoc]

theorem round (h : Trails ahead t r w) (hfed : ahead = [] ∨ r.awaitsInput = false) :
    (∃ o, r.continueFor 1 = .ok o ∧ ∀ fuel, w.continueFor (fuel + 1) = .ok (t.close o)) ∨
      ∃ r' w', r.continueFor 1 = .error r' ∧ Trails ahead t r' w' ∧
        ∀ fuel, w.continueFor (fuel + 1) = w'.continueFor fuel := by
  obtain ⟨hfile, hstats, past, stored, hc, hrest⟩ := h
  rcases r.machine.stops_or_executes with ⟨result, m', hs⟩ | ⟨hl, m', ht⟩
  · rcases hc.stops (hs.withPast past) with ⟨w', hsw, hw'⟩ | hp | ⟨e, rfl, he⟩
    · have hw : Trails ahead t { r with machine := m' } { w with machine := w' } :=
        ⟨hfile, hstats, past, stored, hw', hrest⟩
      rw [handover, mapError_relabel_id] at hsw
      refine .inl ⟨_, by rw [continueFor, hs.run_succ], fun fuel => ?_⟩
      rw [continueFor, hsw.run_succ, hw.close_conclude]
    · cases hp
    · obtain ⟨ha, hlimit, hi, hleft⟩ := hs.starved he hc.device.2
      have hawaits : r.awaitsInput = true := by
        have hi : r.machine.program.code[r.machine.ip]? = some Instruction.input.byte := hi
        simp [awaitsInput, hi, hlimit, hleft]
      rcases hfed with hnil | hnot
      · exact absurd hnil ha
      · cases hnot.symm.trans hawaits
  · rcases hc.executed (ht.withPast past) with ⟨w', htw, hw'⟩ | hp
    · refine .inr ⟨{ r with machine := m' }, { w with machine := w' }, ?_,
        ⟨hfile, hstats, past, stored, hw', hrest⟩, fun fuel => ?_⟩
      · rw [continueFor, run_succ_of_executed 0 hl ht]
        rfl
      · rw [continueFor, run_succ_of_executed fuel (hc.limitReached?.trans hl) htw]
        rfl
    · cases hp

end Trails

theorem bind_eq {σ α β : Type} {m : StateM σ α} {s s' : σ} {a : α} (h : m s = (a, s'))
    (next : α → StateM σ β) : (m >>= next) s = next a s' := by
  change next (m s).1 (m s).2 = next a s'
  rw [h]

theorem drive_succ {ask : StateM Terminal (List UInt8)} {t t' : Terminal} {r : PreparedRun}
    {bytes : List UInt8} (h : r.cleared.request ask (t.after r.shown) = (bytes, t'))
    (rounds : Nat) :
    r.drive ask Terminal.present (rounds + 1) t =
      match (r.cleared.given bytes).continueFor 1 with
      | .ok outcome => (some outcome, t')
      | .error r => r.drive ask Terminal.present rounds t' := by
  have shows : Terminal.present r.shown t = ((), t.after r.shown) := rfl
  rw [drive, bind_eq shows, bind_eq h]
  cases (r.cleared.given bytes).continueFor 1 <;> rfl

theorem Trails.request {asks : Bool} {t : Terminal} {r w : PreparedRun}
    (h : Trails (t.ahead asks) t r w) :
    ∃ bytes t', r.request (if asks then Terminal.ask else pure []) t = (bytes, t') ∧
      Trails (t'.ahead asks) t' (r.given bytes) w ∧
      (t'.ahead asks = [] ∨ (r.given bytes).awaitsInput = false) := by
  rw [PreparedRun.request]
  cases hr : r.awaitsInput with
  | false => exact ⟨[], t, rfl, h, .inr hr⟩
  | true =>
      obtain ⟨t', hask, hahead, houtput, hnotices⟩ := t.exists_answer asks
      obtain ⟨hgiven, hfed⟩ := h.given hr
      rw [← hahead] at hgiven hfed
      exact ⟨_, t', hask, hgiven.congr houtput hnotices, hfed⟩

theorem Trails.drive {asks : Bool} {t : Terminal} {r w : PreparedRun}
    (h : Trails (t.ahead asks) t r w) (rounds : Nat) :
    let ended : Option Outcome × Terminal :=
      r.drive (if asks then Terminal.ask else pure []) Terminal.present rounds t
    ended.1.map ended.2.close = (w.continueFor rounds).toOption := by
  induction rounds generalizing t r w with
  | zero => rfl
  | succ rounds ih =>
      have hcleared : Trails ((t.after r.shown).ahead asks) (t.after r.shown) r.cleared w :=
        h.cleared
      obtain ⟨bytes, t', hrequest, hgiven, hfed⟩ := hcleared.request
      rw [drive_succ hrequest]
      rcases hgiven.round hfed with ⟨o, ho, hw⟩ | ⟨r', w', hr', htrails, hw⟩
      · rw [ho, hw]
        rfl
      · rw [hr', hw]
        exact ih htrails

theorem of_cases (files : Files) (file : String) (input : Option String) (engine : EngineOptions)
    (stats : Bool) :
    (∃ o, ∀ stdin, PreparedRun.of files stdin file input engine stats = .error o) ∨
      ∃ p config notices source, ∀ stdin,
        PreparedRun.of files stdin file input engine stats = .ok ⟨file, stats,
          .start p config (if input.isNone then stdin else source) .empty, notices⟩ := by
  unfold PreparedRun.of
  cases engine.config? with
  | error e => exact .inl ⟨_, fun _ => rfl⟩
  | ok config =>
      dsimp only
      rcases readValid files file config.validation with ⟨_ | p, notices⟩
      · exact .inl ⟨_, fun _ => rfl⟩
      · cases input with
        | none => exact .inr ⟨p, config, notices, .empty, fun _ => rfl⟩
        | some name =>
            dsimp only [Option.elim_some]
            cases openFile files name with
            | error e => exact .inl ⟨_, fun _ => rfl⟩
            | ok source => exact .inr ⟨p, config, notices, source, fun _ => rfl⟩

end PreparedRun

theorem driveFile_eq_runFile (rounds : Nat) (files : Files) (bytes : List UInt8) (file : String)
    (input : Option String) (engine : EngineOptions) (stats : Bool) :
    let ended : Option Outcome × Terminal :=
      driveFile Terminal.ask Terminal.present rounds files file input engine stats ⟨bytes, [], []⟩
    ended.1.map ended.2.close = runFile rounds files (.ofBytes bytes) file input engine stats := by
  rcases PreparedRun.of_cases files file input engine stats with
    ⟨o, ho⟩ | ⟨p, config, notices, source, hr⟩
  · simp only [driveFile, runFile, ho]
    rfl
  · simp only [driveFile, runFile, hr]
    apply PreparedRun.Trails.drive
    refine ⟨rfl, rfl, #[], #[], ⟨rfl, rfl, ?_⟩, rfl, List.append_nil _⟩
    cases input with
    | none => exact .inr ⟨[], ⟨[], rfl, rfl⟩, Source.holds_ofBytes bytes⟩
    | some name => exact .inl ⟨rfl, rfl⟩

end TapeLang.Command
