import TapeLang.Proofs.Interpretation
import TapeLang.Proofs.Machine.Trace
import TapeLang.Proofs.Machine.Unmatched
import TapeLang.Proofs.Program.Fragment

namespace TapeLang

namespace Machine

variable {ip : Nat} {result : Option (Except ExecutionError RunStats)} {e : Event}

theorem finalEvent?_eq_halted_iff {stats : RunStats} :
    finalEvent? ip result = some (.programHalted stats) ↔
      result.map (·.mapError InterpretError.execution) = some (.ok stats) := by
  rcases result with _ | (_ | _ | _ | _) | _ <;> simp [finalEvent?, Except.mapError]

theorem finalEvent?_eq_limit_iff {limit : UInt64} {stop : Nat} :
    finalEvent? ip result = some (.stepLimitReached limit stop) ↔
      result.map (·.mapError InterpretError.execution) =
        some (.error (.execution (.stepLimitExceeded limit))) ∧ stop = ip := by
  rcases result with _ | (_ | _ | _ | _) | _ <;> simp [finalEvent?, Except.mapError, eq_comm]

theorem finalEvent?_cases (h : finalEvent? ip result = some e) :
    (∃ stats, e = .programHalted stats) ∨ ∃ limit stop, e = .stepLimitReached limit stop := by
  rcases result with _ | (_ | _ | _ | limit) | stats <;> cases h
  · exact .inr ⟨limit, ip, rfl⟩
  · exact .inl ⟨stats, rfl⟩

theorem filter_isJump_finalEvent? : (finalEvent? ip result).toList.filter Event.isJump = [] := by
  rcases result with _ | (_ | _ | _ | _) | _ <;> rfl

theorem Unmatched.not_resolves {m : Machine} (h : m.Unmatched) (target : Nat) :
    ¬ (Event.skipLoop m.ip target).Resolves m.program ∧
      ¬ (Event.repeatLoop m.ip target).Resolves m.program := by
  rcases h with ⟨hb, -, hn⟩ | ⟨hb, -, hn⟩
  · constructor
    · rintro ⟨-, -, ht⟩
      cases hn.symm.trans ht
    · rintro ⟨hb', -, -⟩
      exact loopStart_ne_loopEnd (Option.some.inj (hb.symm.trans hb'))
  · constructor
    · rintro ⟨hb', -, -⟩
      exact loopStart_ne_loopEnd (Option.some.inj (hb'.symm.trans hb))
    · rintro ⟨-, -, ht⟩
      cases hn.symm.trans ht

end Machine

section

variable (fuel : Nat) {source : Source} (input : Source) (output : Sink) {config : Config}
  {p : Program} (hl : (Loader.ofSource source).load.1 = .ok p)
  (hv : p.validate config.validation = .ok ())
include hl hv

theorem log_interpret_traced :
    (interpret fuel source input output config).log.toList =
      [.programLoaded p.size p.instructionCount, .programValidated config.validation] ++
        (((Machine.start p config input output).runHistory fuel).filterMap Machine.jumpEvent? ++
          (Machine.finalEvent? ((Machine.start p config input output).run fuel).2.ip
            ((Machine.start p config input output).run fuel).1).toList) := by
  rw [log_interpret_of_valid fuel input output hl hv, Array.toList_append,
    ((Machine.start p config input output).run_traced fuel).1]
  rfl

theorem filter_isJump_interpret :
    (interpret fuel source input output config).log.toList.filter Event.isJump =
      ((Machine.start p config input output).runHistory fuel).filterMap Machine.jumpEvent? := by
  rw [log_interpret_traced fuel input output hl hv, List.filter_append, List.filter_append,
    Machine.filter_isJump_finalEvent?,
    List.filter_eq_self.2 fun e he => (Machine.resolves_of_mem_runHistory he).isJump]
  exact List.append_nil _

theorem resolves_of_mem_interpret {e : Event}
    (he : e ∈ (interpret fuel source input output config).log) (hj : e.isJump = true) :
    e.Resolves p := by
  have hmem := List.mem_filter.2 ⟨Array.mem_toList_iff.2 he, hj⟩
  rw [filter_isJump_interpret fuel input output hl hv] at hmem
  exact Machine.resolves_of_mem_runHistory hmem

theorem countP_isJump_interpret :
    (interpret fuel source input output config).log.toList.countP Event.isJump =
      (((Machine.start p config input output).runHistory fuel).filterMap
        Machine.jumpEvent?).length := by
  rw [List.countP_eq_length_filter, filter_isJump_interpret fuel input output hl hv]

theorem unmatched_of_interpret {position : Nat}
    (h : (interpret fuel source input output config).result =
      some (.error (.execution (.unmatchedDelimiter position)))) :
    ∃ m : Machine, m.program = p ∧ m.ip = position ∧ m.Unmatched := by
  rw [(interpret_of_valid fuel input output hl hv).1] at h
  have run := Machine.Run.of_run (Prod.ext (eq_of_map_execution h) rfl)
  obtain ⟨hip, hu⟩ := Machine.unmatched_of_run run
  exact ⟨_, run.program_eq, hip, hu⟩

end

theorem interpretation_trace (fuel : Nat) (source input : Source) (output : Sink)
    (config : Config) :
    let i := interpret fuel source input output config
    match (Loader.ofSource source).load.1 with
    | .error e => i.result = some (.error (.load e)) ∧ i.log = #[]
    | .ok p =>
        match p.validate config.validation with
        | .error e =>
            i.result = some (.error (.validation e)) ∧
            i.log = #[.programLoaded p.size p.instructionCount,
              .programRejected config.validation e] ∧
            ("error", (InterpretError.validation e).message) ∈
              (Event.programRejected config.validation e).fields
        | .ok () =>
            let m := ((Machine.start p config input output).run fuel).2
            let past := (Machine.start p config input output).runHistory fuel
            let jumps := past.filterMap Machine.jumpEvent?
            (∃ final : Option Event,
              i.log.toList =
                [.programLoaded p.size p.instructionCount,
                  .programValidated config.validation] ++ (jumps ++ final.toList) ∧
              (∀ stats, final = some (.programHalted stats) ↔ i.result = some (.ok stats)) ∧
              (∀ limit ip, final = some (.stepLimitReached limit ip) ↔
                i.result = some (.error (.execution (.stepLimitExceeded limit))) ∧ ip = m.ip) ∧
              ∀ e, final = some e →
                (∃ stats, e = .programHalted stats) ∨
                  ∃ limit ip, e = .stepLimitReached limit ip) ∧
            (∀ e ∈ jumps, e.Resolves p) ∧
            m.stats.jumps = .ofNat (i.log.toList.countP Event.isJump) ∧
            (past.length < UInt64.size →
              m.stats.jumps.toNat = i.log.toList.countP Event.isJump) ∧
            ∀ position, i.result = some (.error (.execution (.unmatchedDelimiter position))) →
              ∀ target, .skipLoop position target ∉ i.log ∧
                .repeatLoop position target ∉ i.log := by
  intro i
  split
  · rename_i e hl
    exact interpret_of_unloaded fuel input output hl
  · rename_i p hl
    split
    · rename_i e hv
      refine ⟨(interpret_of_invalid fuel input output hl hv).1,
        log_interpret_of_invalid fuel input output hl hv, ?_⟩
      exact .tail _ (.head _)
    · rename_i hv
      intro m past jumps
      have hresult : i.result = _ := (interpret_of_valid fuel input output hl hv).1
      have hcount : i.log.toList.countP Event.isJump = jumps.length :=
        countP_isJump_interpret fuel input output hl hv
      have hjumps : m.stats.jumps = .ofNat jumps.length :=
        ((Machine.start p config input output).run_traced fuel).2.trans (UInt64.zero_add _)
      refine ⟨⟨_, log_interpret_traced fuel input output hl hv, ?_, ?_, ?_⟩,
        fun e => Machine.resolves_of_mem_runHistory, ?_, ?_, ?_⟩
      · intro stats
        rw [Machine.finalEvent?_eq_halted_iff, hresult]
      · intro limit ip
        rw [Machine.finalEvent?_eq_limit_iff, hresult]
      · intro e
        exact Machine.finalEvent?_cases
      · rw [hcount, hjumps]
      · intro hlt
        rw [hcount, hjumps]
        exact UInt64.toNat_ofNat_of_lt' (Nat.lt_of_le_of_lt (List.length_filterMap_le _ _) hlt)
      · intro position hunmatched target
        obtain ⟨w, rfl, rfl, hu⟩ := unmatched_of_interpret fuel input output hl hv hunmatched
        obtain ⟨hskip, hrepeat⟩ := hu.not_resolves target
        constructor
        · intro he
          exact hskip (resolves_of_mem_interpret fuel input output hl hv he rfl)
        · intro he
          exact hrepeat (resolves_of_mem_interpret fuel input output hl hv he rfl)

end TapeLang
