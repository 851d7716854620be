import TapeLang.Proofs.Machine.History

namespace TapeLang

def Event.Resolves (p : Program) : Event → Prop
  | .skipLoop start target =>
      p.code[start]? = some Instruction.loopStart.byte ∧
        p.code[target]? = some Instruction.loopEnd.byte ∧ p.matchingClose start = some target
  | .repeatLoop start target =>
      p.code[start]? = some Instruction.loopEnd.byte ∧
        p.code[target]? = some Instruction.loopStart.byte ∧ p.matchingOpen start = some target
  | _ => False

theorem Event.Resolves.isJump {p : Program} {e : Event} (h : e.Resolves p) : e.isJump = true := by
  cases e <;> first | rfl | exact h.elim

namespace Machine

def jumpEvent? (m : Machine) : Option Event :=
  if m.program.code[m.ip]? = some Instruction.loopStart.byte ∧ m.device.cell = 0 then
    (m.program.matchingClose m.ip).map (.skipLoop m.ip)
  else if m.program.code[m.ip]? = some Instruction.loopEnd.byte ∧ m.device.cell ≠ 0 then
    (m.program.matchingOpen m.ip).map (.repeatLoop m.ip)
  else none

def finalEvent? (ip : Nat) : Option (Except ExecutionError RunStats) → Option Event
  | some (.ok stats) => some (.programHalted stats)
  | some (.error (.stepLimitExceeded limit)) => some (.stepLimitReached limit ip)
  | _ => none

section

variable {m m' : Machine} {r : Except ExecutionError Step} {b : UInt8} {e : Event}

theorem jumpEvent?_of_byte (hb : m.program.code[m.ip]? = some b)
    (hstart : b = Instruction.loopStart.byte → m.device.cell ≠ 0)
    (hend : b = Instruction.loopEnd.byte → m.device.cell = 0) : m.jumpEvent? = none := by
  have hbyte {c : UInt8} (h : m.program.code[m.ip]? = some c) : b = c :=
    Option.some.inj (hb.symm.trans h)
  rw [jumpEvent?, if_neg, if_neg]
  · rintro ⟨h, hc⟩
    exact hc (hend (hbyte h))
  · rintro ⟨h, hc⟩
    exact hstart (hbyte h) hc

theorem jumpEvent?_of_loopStart (hb : m.program.code[m.ip]? = some Instruction.loopStart.byte)
    (hc : m.device.cell = 0) :
    m.jumpEvent? = (m.program.matchingClose m.ip).map (.skipLoop m.ip) := by
  rw [jumpEvent?, if_pos ⟨hb, hc⟩]

theorem jumpEvent?_of_loopEnd (hb : m.program.code[m.ip]? = some Instruction.loopEnd.byte)
    (hc : m.device.cell ≠ 0) :
    m.jumpEvent? = (m.program.matchingOpen m.ip).map (.repeatLoop m.ip) := by
  rw [jumpEvent?, if_neg fun h => hc h.2, if_pos ⟨hb, hc⟩]

theorem jumpEvent?_of_halted (hb : m.program.code[m.ip]? = none) : m.jumpEvent? = none := by
  simp [jumpEvent?, hb]

theorem Transition.traced (h : Transition m r m') :
    m'.log.toList = m.log.toList ++ m.jumpEvent?.toList ∧
      m'.stats.jumps = m.stats.jumps + .ofNat m.jumpEvent?.toList.length := by
  have quiet (hj : m.jumpEvent? = none) (hlog : m'.log = m.log)
      (hs : m'.stats.jumps = m.stats.jumps) :
      m'.log.toList = m.log.toList ++ m.jumpEvent?.toList ∧
        m'.stats.jumps = m.stats.jumps + .ofNat m.jumpEvent?.toList.length := by
    rw [hj, hlog, hs]
    exact ⟨(List.append_nil _).symm, (UInt64.add_zero _).symm⟩
  cases h with
  | halted hb => exact quiet (jumpEvent?_of_halted hb) rfl rfl
  | atom hb ha =>
      refine quiet (jumpEvent?_of_byte hb (absurd · ha.1) (absurd · ha.2)) rfl ?_
      change (m.stats.afterAtom _).jumps = m.stats.jumps
      unfold RunStats.afterAtom
      split <;> rfl
  | atomFails hb ha =>
      exact quiet (jumpEvent?_of_byte hb (absurd · ha.1) (absurd · ha.2)) rfl rfl
  | enterLoop hb hc =>
      exact quiet (jumpEvent?_of_byte hb (fun _ => hc) (absurd · loopStart_ne_loopEnd)) rfl rfl
  | skipLoop hb hc ht =>
      rw [jumpEvent?_of_loopStart hb hc, ht]
      exact ⟨Array.toList_push, rfl⟩
  | unclosed hb hc ht =>
      refine quiet ?_ rfl rfl
      rw [jumpEvent?_of_loopStart hb hc, ht, Option.map_none]
  | leaveLoop hb hc =>
      exact quiet (jumpEvent?_of_byte hb (absurd · loopEnd_ne_loopStart) fun _ => hc) rfl rfl
  | repeatLoop hb hc ht =>
      rw [jumpEvent?_of_loopEnd hb hc, ht]
      exact ⟨Array.toList_push, rfl⟩
  | unopened hb hc ht =>
      refine quiet ?_ rfl rfl
      rw [jumpEvent?_of_loopEnd hb hc, ht, Option.map_none]

theorem resolves_of_jumpEvent? (h : m.jumpEvent? = some e) : e.Resolves m.program := by
  unfold jumpEvent? at h
  split at h
  · rename_i hb
    obtain ⟨target, ht, rfl⟩ := Option.map_eq_some_iff.1 h
    exact ⟨hb.1, Program.byte_of_matchingClose ht, ht⟩
  · split at h
    · rename_i hb
      have hip : m.ip < m.program.size := (Array.getElem?_eq_some_iff.1 hb.1).1
      obtain ⟨target, ht, rfl⟩ := Option.map_eq_some_iff.1 h
      exact ⟨hb.1, Program.byte_of_matchingOpen (Nat.le_of_lt hip) ht, ht⟩
    · cases h

end

section

variable {m m' : Machine} {r : Except ExecutionError RunStats}

theorem finalEvent?_of_position {e : ExecutionError} {position : Nat} (ip : Nat)
    (h : e.position? = some position) : finalEvent? ip (some (.error e)) = none := by
  cases e <;> first | rfl | cases h

theorem Stops.traced (h : Stops m r m') :
    m'.log.toList = m.log.toList ++ (finalEvent? m'.ip (some r)).toList ∧
      m'.stats.jumps = m.stats.jumps := by
  cases h with
  | halt => exact ⟨Array.toList_push, rfl⟩
  | limit => exact ⟨Array.toList_push, rfl⟩
  | fail hl ht =>
      obtain ⟨hm, -, hp⟩ := ht.eq_of_error
      rw [finalEvent?_of_position _ hp, hm]
      exact ⟨(List.append_nil _).symm, rfl⟩

theorem run_traced (m : Machine) (fuel : Nat) :
    (m.run fuel).2.log.toList =
        m.log.toList ++ ((m.runHistory fuel).filterMap jumpEvent? ++
          (finalEvent? (m.run fuel).2.ip (m.run fuel).1).toList) ∧
      (m.run fuel).2.stats.jumps =
        m.stats.jumps + .ofNat ((m.runHistory fuel).filterMap jumpEvent?).length := by
  induction fuel generalizing m with
  | zero => exact ⟨(List.append_nil _).symm, (UInt64.add_zero _).symm⟩
  | succ fuel ih =>
      rcases m.stops_or_executes with ⟨r, m', hs⟩ | ⟨hl, m₁, ht⟩
      · rw [runHistory_of_stops hs, hs.run_succ]
        obtain ⟨hlog, hjumps⟩ := hs.traced
        exact ⟨hlog, hjumps.trans (UInt64.add_zero _).symm⟩
      · obtain ⟨hlog, hjumps⟩ := ht.traced
        obtain ⟨hlog', hjumps'⟩ := ih m₁
        have hcons : (m.runHistory (fuel + 1)).filterMap jumpEvent? =
            m.jumpEvent?.toList ++ (m₁.runHistory fuel).filterMap jumpEvent? := by
          rw [runHistory_of_executed hl ht, List.filterMap_cons]
          cases m.jumpEvent? <;> rfl
        rw [hcons, run_succ_of_executed fuel hl ht]
        constructor
        · rw [hlog', hlog]
          simp only [List.append_assoc]
        · rw [hjumps', hjumps, List.length_append, UInt64.ofNat_add, UInt64.add_assoc]

theorem program_of_mem_runHistory {w : Machine} {fuel : Nat} (h : w ∈ m.runHistory fuel) :
    w.program = m.program := by
  have hall : (∀ v ∈ [] ++ m.runHistory fuel, v.program = m.program) ∧
      (m.run fuel).2.program = m.program :=
    runHistory_invariant
      (P := fun past w => (∀ v ∈ past, v.program = m.program) ∧ w.program = m.program)
      (fun hp ht => ⟨List.forall_mem_append.2 ⟨hp.1, List.forall_mem_singleton.2 hp.2⟩,
        ht.program_eq.trans hp.2⟩)
      (fun hp ht => ⟨hp.1, ht.program_eq.trans hp.2⟩) (fun hp => hp)
      ⟨List.forall_mem_nil _, rfl⟩ fuel
  exact hall.1 w h

theorem resolves_of_mem_runHistory {e : Event} {fuel : Nat}
    (h : e ∈ (m.runHistory fuel).filterMap jumpEvent?) : e.Resolves m.program := by
  obtain ⟨w, hw, he⟩ := List.mem_filterMap.1 h
  rw [← program_of_mem_runHistory hw]
  exact resolves_of_jumpEvent? he

end

end Machine

end TapeLang
