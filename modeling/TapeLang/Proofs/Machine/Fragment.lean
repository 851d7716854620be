import TapeLang.Proofs.Machine.Reachable
import TapeLang.Proofs.Program.Fragment

namespace TapeLang.Machine

structure Embeds (offset : Nat) (m w : Machine) : Prop where
  program : w.program.Hosts m.program offset
  ip : w.ip = offset + m.ip
  device : w.device = m.device
  stats : w.stats = m.stats
  stepLimit : w.stepLimit = m.stepLimit

namespace Embeds

variable {offset : Nat} {m m' w : Machine}

theorem record_left (h : Embeds offset m w) (e : Event) : Embeds offset (m.record e) w :=
  ⟨h.program, h.ip, h.device, h.stats, h.stepLimit⟩

theorem record_right (h : Embeds offset m w) (e : Event) : Embeds offset m (w.record e) :=
  ⟨h.program, h.ip, h.device, h.stats, h.stepLimit⟩

theorem byte {b : UInt8} (h : Embeds offset m w) (hb : m.program.code[m.ip]? = some b) :
    w.program.code[w.ip]? = some b := by
  rw [h.ip]
  exact h.program.byte hb

theorem limitReached? (h : Embeds offset m w) : w.limitReached? = m.limitReached? := by
  rw [Machine.limitReached?, h.stats, h.stepLimit, Machine.limitReached?]

theorem transition {r : Except ExecutionError Step} (h : Embeds offset m w)
    (ht : Transition m r m') (hr : r ≠ .ok .halted) :
    ∃ w', Transition w (r.mapError (·.relocate (offset + ·))) w' ∧ Embeds offset m' w' := by
  have hp := h.program
  have hd := h.device
  have hl := h.stepLimit
  cases ht with
  | halted => exact absurd rfl hr
  | atom hb ha he =>
      rw [← hd] at he
      refine ⟨_, .atom (h.byte hb) ha he, hp, ?_, rfl, ?_, hl⟩
      · rw [h.ip, Nat.add_assoc]
      · rw [h.stats]
  | @atomFails b f d hb ha he =>
      rw [← hd] at he
      refine ⟨{ w with device := d }, ?_, hp, h.ip, rfl, h.stats, hl⟩
      rw [Except.mapError, Failure.relocate_located, ← h.ip]
      exact .atomFails (h.byte hb) ha he
  | enterLoop hb hc =>
      rw [← hd] at hc
      refine ⟨_, .enterLoop (h.byte hb) hc, hp, ?_, hd, ?_, hl⟩
      · rw [advance, h.ip, Nat.add_assoc, advance]
      · rw [advance, h.stats, advance]
  | @skipLoop target hb hc htarget =>
      rw [← hd] at hc
      have htw : w.program.matchingClose w.ip = some (offset + target) := by
        rw [h.ip, hp.matchingClose hb, htarget, Option.map_some]
      refine ⟨_, .skipLoop (h.byte hb) hc htw, hp, ?_, hd, ?_, hl⟩
      · rw [jump, Nat.add_assoc, jump]
      · rw [jump, h.stats, jump]
  | unclosed hb hc htarget =>
      rw [← hd] at hc
      refine ⟨w, ?_, h⟩
      rw [Except.mapError, ExecutionError.relocate, ← h.ip]
      refine .unclosed (h.byte hb) hc ?_
      rw [h.ip, hp.matchingClose hb, htarget, Option.map_none]
  | leaveLoop hb hc =>
      rw [← hd] at hc
      refine ⟨_, .leaveLoop (h.byte hb) hc, hp, ?_, hd, ?_, hl⟩
      · rw [advance, h.ip, Nat.add_assoc, advance]
      · rw [advance, h.stats, advance]
  | @repeatLoop target hb hc htarget =>
      rw [← hd] at hc
      have htw : w.program.matchingOpen w.ip = some (offset + target) := by
        rw [h.ip, hp.matchingOpen hb, htarget, Option.map_some]
      refine ⟨_, .repeatLoop (h.byte hb) hc htw, hp, ?_, hd, ?_, hl⟩
      · rw [jump, Nat.add_assoc, jump]
      · rw [jump, h.stats, jump]
  | unopened hb hc htarget =>
      rw [← hd] at hc
      refine ⟨w, ?_, h⟩
      rw [Except.mapError, ExecutionError.relocate, ← h.ip]
      refine .unopened (h.byte hb) hc ?_
      rw [h.ip, hp.matchingOpen hb, htarget, Option.map_none]

theorem stepped {count : Nat} (h : Embeds offset m w) (hm : m.stepped count = some m') :
    ∃ w', w.stepped count = some w' ∧ Embeds offset m' w' := by
  induction count generalizing m w with
  | zero =>
      obtain rfl := Option.some.inj hm
      exact ⟨w, rfl, h⟩
  | succ count ih =>
      obtain ⟨m₁, ht, hm₁⟩ := exists_transition_of_stepped hm
      obtain ⟨w₁, htw, hw₁⟩ := h.transition ht nofun
      obtain ⟨w', hw, hw'⟩ := ih hw₁ hm₁
      exact ⟨w', (stepped_succ htw count).trans hw, hw'⟩

end Embeds

inductive Follows (offset : Nat) (m w : Machine) (fuel : Nat) : Prop
  | unfinished (hm : (m.run fuel).1 = none) (hw : (w.run fuel).1 = none)
  | failed {e : ExecutionError} {m' w' : Machine} (hm : m.run fuel = (some (.error e), m'))
      (hw : w.run fuel = (some (.error (e.relocate (offset + ·))), w'))
      (h : Embeds offset m' w')
  | halted {stats : RunStats} {m' w₁ : Machine} {count : Nat} (hc : count < fuel)
      (hm : m.run fuel = (some (.ok stats), m')) (h : Embeds offset m' w₁)
      (hp : w₁.program = w.program) (hw : ∀ left, w.run (count + left) = w₁.run left)

theorem Embeds.follows {offset : Nat} {m w : Machine} (h : Embeds offset m w) (fuel : Nat) :
    Follows offset m w fuel := by
  induction fuel generalizing m w with
  | zero => exact .unfinished rfl rfl
  | succ fuel ih =>
      rcases m.stops_or_executes with ⟨r, m', hs⟩ | ⟨hl, m₁, ht⟩
      · have hm := hs.run_succ fuel
        cases hs with
        | halt =>
            exact .halted (Nat.succ_pos fuel) hm (h.record_left _) rfl fun left => by
              rw [Nat.zero_add]
        | limit hh hl =>
            obtain ⟨b, hb⟩ := isHalted_eq_false_iff.1 hh
            have hw := Stops.limit (isHalted_of_byte (h.byte hb)) (h.limitReached?.trans hl)
            exact .failed hm (hw.run_succ fuel) ((h.record_left _).record_right _)
        | fail hl ht =>
            obtain ⟨w', htw, hw'⟩ := h.transition ht nofun
            exact .failed hm (Stops.run_succ fuel (.fail (h.limitReached?.trans hl) htw)) hw'
      · obtain ⟨w₁, htw, hw₁⟩ := h.transition ht nofun
        have hm fuel := run_succ_of_executed fuel hl ht
        have hw fuel := run_succ_of_executed fuel (h.limitReached?.trans hl) htw
        cases ih hw₁ with
        | unfinished hm₁ hw₁ => exact .unfinished (by rw [hm, hm₁]) (by rw [hw, hw₁])
        | failed hm₁ hw₁ h' => exact .failed ((hm fuel).trans hm₁) ((hw fuel).trans hw₁) h'
        | halted hc hm₁ h' hp hw₁ =>
            refine .halted (Nat.succ_lt_succ hc) ((hm fuel).trans hm₁) h'
              (hp.trans htw.program_eq) fun left => ?_
            rw [Nat.succ_add, hw, hw₁]

section

variable {offset fuel : Nat} {m m' w : Machine}

theorem Embeds.run_error {e : ExecutionError} (h : Embeds offset m w)
    (hm : m.run fuel = (some (.error e), m')) :
    ∃ w', w.run fuel = (some (.error (e.relocate (offset + ·))), w') ∧ Embeds offset m' w' := by
  cases h.follows fuel with
  | unfinished hm' =>
      rw [hm] at hm'
      cases hm'
  | failed hm' hw h' =>
      rw [hm] at hm'
      cases hm'
      exact ⟨_, hw, h'⟩
  | halted _ hm' =>
      rw [hm] at hm'
      cases hm'

theorem Embeds.run_ok {stats : RunStats} (h : Embeds offset m w)
    (hm : m.run fuel = (some (.ok stats), m')) :
    ∃ w₁ count, count < fuel ∧ Embeds offset m' w₁ ∧ w₁.program = w.program ∧
      ∀ left, w.run (count + left) = w₁.run left := by
  cases h.follows fuel with
  | unfinished hm' =>
      rw [hm] at hm'
      cases hm'
  | failed hm' =>
      rw [hm] at hm'
      cases hm'
  | halted hc hm' h' hp hw =>
      rw [hm] at hm'
      cases hm'
      exact ⟨_, _, hc, h', hp, hw⟩

theorem Embeds.exists_run {w' : Machine} {r : Except ExecutionError RunStats}
    (h : Embeds offset m w) (hw : w.run fuel = (some r, w')) :
    ∃ r' m', m.run fuel = (some r', m') := by
  cases h.follows fuel with
  | unfinished _ hw' =>
      rw [hw] at hw'
      cases hw'
  | failed hm => exact ⟨_, _, hm⟩
  | halted _ hm => exact ⟨_, _, hm⟩

theorem Embeds.run {r : Except ExecutionError RunStats} (h : Embeds offset m w)
    (hend : w.program.size = offset + m.program.size) (hm : m.run fuel = (some r, m')) :
    ∃ w', w.run fuel = (some (r.mapError (·.relocate (offset + ·))), w') ∧
      Embeds offset m' w' := by
  cases r with
  | error e => exact h.run_error hm
  | ok stats =>
      obtain ⟨w₁, count, hc, h', hp, hw⟩ := h.run_ok hm
      have hrun := Run.of_run hm
      -- The fragment ends where the program ends, so both halt there.
      have hh : w₁.isHalted = true := by
        have hle := hrun.isHalted_of_ok
        rw [isHalted, decide_eq_true_eq] at hle ⊢
        rw [hp, hend, h'.ip, ← hrun.program_eq]
        exact Nat.add_le_add_left hle offset
      obtain ⟨left, rfl⟩ : ∃ left, fuel = count + (left + 1) := ⟨fuel - count - 1, by omega⟩
      have hw' := Stops.run_succ left (.halt hh)
      rw [h'.stats, ← hrun.stats_of_ok] at hw'
      exact ⟨_, (hw (left + 1)).trans hw', h'.record_right _⟩

end

def placed (m : Machine) (program : Program) (ip : Nat) : Machine :=
  { m with program, ip }

theorem embeds_placed (m : Machine) {whole part : Program} {offset : Nat}
    (h : whole.Hosts part offset) : Embeds offset (m.placed part 0) (m.placed whole offset) :=
  ⟨h, rfl, rfl, rfl, rfl⟩

structure Lockstep (offset : Nat) (m w : Machine) : Prop where
  embeds : Embeds offset m w
  inside : offset ≤ w.ip ∧ w.ip ≤ offset + m.program.size
  halted : m.step.1 = .ok .halted → w.ip = offset + m.program.size
  going : m.step.1 ≠ .ok .halted → w.ip < offset + m.program.size ∧
    w.step.1 = m.step.1.mapError (·.relocate (offset + ·)) ∧ Embeds offset m.step.2 w.step.2

theorem Embeds.lockstep {offset : Nat} {m w : Machine} (h : Embeds offset m w)
    (hip : m.ip ≤ m.program.size) : Lockstep offset m w := by
  refine ⟨h, ?_, ?_, ?_⟩
  · rw [h.ip]
    omega
  · intro hm
    rw [h.ip, (step_halts_iff hip).1 hm]
  · intro hm
    have hne := mt (step_halts_iff hip).2 hm
    obtain ⟨r, m', ht⟩ := m.exists_transition
    rw [step_of_transition ht] at hm
    obtain ⟨w', htw, h'⟩ := h.transition ht hm
    rw [step_of_transition ht, step_of_transition htw, h.ip]
    exact ⟨by omega, rfl, h'⟩

theorem relocate_zero_add (e : ExecutionError) : e.relocate (0 + ·) = e := by
  cases e <;> simp [ExecutionError.relocate]

section

variable {part : List UInt8} (h : (Program.ofList part).validate .strict = .ok ()) {m : Machine}
include h

theorem lockstep_of_stepped (before after : List UInt8) {count : Nat} {m' : Machine}
    (hm : (m.placed (.ofList part) 0).stepped count = some m') :
    ∃ w, (m.placed (.ofList (before ++ part ++ after)) before.length).stepped count = some w ∧
      Lockstep before.length m' w := by
  obtain ⟨w, hw, he⟩ := (embeds_placed m (Program.hosts_of_strict h before after)).stepped hm
  refine ⟨w, hw, he.lockstep ?_⟩
  rw [program_of_stepped hm]
  exact ip_le_of_stepped (Nat.zero_le _) hm

variable (suffix : List UInt8)

theorem embeds_first (m : Machine) : Embeds 0 (m.placed (.ofList part) 0)
    (m.placed (.ofList (part ++ suffix)) 0) :=
  embeds_placed m (Program.hosts_of_strict h [] suffix)

theorem embeds_rest {stats : RunStats} {fuel : Nat} {m' : Machine}
    (hm : (m.placed (.ofList part) 0).run fuel = (some (.ok stats), m')) :
    ∃ w count, count < fuel ∧ Embeds part.length (m'.placed (.ofList suffix) 0) w ∧
      w.program.size = part.length + (Program.ofList suffix).size ∧
      ∀ left, (m.placed (.ofList (part ++ suffix)) 0).run (count + left) = w.run left := by
  obtain ⟨w, count, hc, he, hp, hw⟩ := (embeds_first h suffix m).run_ok hm
  have hend : m'.ip = part.length :=
    (ip_eq_size_of_run (Nat.zero_le _) hm).trans (Program.size_ofList part)
  refine ⟨w, count, hc, ⟨?_, ?_, he.device, he.stats, he.stepLimit⟩, ?_, hw⟩
  · rw [hp]
    exact Program.hosts_after_strict h suffix
  · rw [he.ip, hend, Nat.zero_add]
    rfl
  · rw [hp, Program.size_ofList]
    exact (Program.size_ofList _).trans List.length_append

theorem run_first_or_rest {fuel : Nat} {r : Except ExecutionError RunStats} {w : Machine}
    (hw : (m.placed (.ofList (part ++ suffix)) 0).run fuel = (some r, w)) :
    (∃ e m', (m.placed (.ofList part) 0).run fuel = (some (.error e), m') ∧ r = .error e ∧
        Embeds 0 m' w) ∨
      ∃ stats m' left r' q, (m.placed (.ofList part) 0).run fuel = (some (.ok stats), m') ∧
        (m'.placed (.ofList suffix) 0).run left = (some r', q) ∧
        r = r'.mapError (·.relocate (part.length + ·)) ∧ Embeds part.length q w := by
  have hfirst := embeds_first h suffix m
  obtain ⟨r₁, m', hm⟩ := hfirst.exists_run hw
  cases r₁ with
  | error e =>
      obtain ⟨w', hw', he⟩ := hfirst.run_error hm
      rw [hw, relocate_zero_add] at hw'
      cases hw'
      exact .inl ⟨e, m', hm, rfl, he⟩
  | ok stats =>
      obtain ⟨w₁, count, hc, hrest, hend, hw₁⟩ := embeds_rest h suffix hm
      obtain ⟨left, rfl⟩ : ∃ left, fuel = count + left := ⟨fuel - count, by omega⟩
      rw [hw₁] at hw
      obtain ⟨r', q, hq⟩ := hrest.exists_run hw
      obtain ⟨w', hw', he⟩ := hrest.run hend hq
      rw [hw] at hw'
      cases hw'
      exact .inr ⟨stats, m', left, r', q, hm, hq, rfl, he⟩

end

theorem balanced_fragment_transparent {part : List UInt8}
    (h : (Program.ofList part).validate .strict = .ok ()) (m : Machine) :
    (∀ before after count m', (m.placed (.ofList part) 0).stepped count = some m' →
      ∃ w, (m.placed (.ofList (before ++ part ++ after)) before.length).stepped count = some w ∧
        Lockstep before.length m' w) ∧
    ∀ suffix,
      (∀ fuel e m', (m.placed (.ofList part) 0).run fuel = (some (.error e), m') →
        ∃ w, (m.placed (.ofList (part ++ suffix)) 0).run fuel = (some (.error e), w) ∧
          Embeds 0 m' w) ∧
      (∀ fuel stats m', (m.placed (.ofList part) 0).run fuel = (some (.ok stats), m') →
        ∀ left r q, (m'.placed (.ofList suffix) 0).run left = (some r, q) →
          ∃ fuel w, (m.placed (.ofList (part ++ suffix)) 0).run fuel =
              (some (r.mapError (·.relocate (part.length + ·))), w) ∧
            Embeds part.length q w) ∧
      ∀ fuel r w, (m.placed (.ofList (part ++ suffix)) 0).run fuel = (some r, w) →
        (∃ e m', (m.placed (.ofList part) 0).run fuel = (some (.error e), m') ∧ r = .error e ∧
          Embeds 0 m' w) ∨
        ∃ stats m' left r' q, (m.placed (.ofList part) 0).run fuel = (some (.ok stats), m') ∧
          (m'.placed (.ofList suffix) 0).run left = (some r', q) ∧
          r = r'.mapError (·.relocate (part.length + ·)) ∧ Embeds part.length q w := by
  refine ⟨?_, ?_⟩
  · intro before after count m' hm
    exact lockstep_of_stepped h before after hm
  · intro suffix
    refine ⟨?_, ?_, ?_⟩
    · intro fuel e m' hm
      obtain ⟨w, hw, he⟩ := (embeds_first h suffix m).run_error hm
      rw [relocate_zero_add] at hw
      exact ⟨w, hw, he⟩
    · intro fuel stats m' hm left r q hq
      obtain ⟨w₁, count, -, hrest, hend, hw₁⟩ := embeds_rest h suffix hm
      obtain ⟨w, hw, he⟩ := hrest.run hend hq
      exact ⟨count + left, w, (hw₁ left).trans hw, he⟩
    · intro fuel r w hw
      exact run_first_or_rest h suffix hw

theorem balanced_fragment_transparent_clear :
    let m := start (.ofList []) { tapeLength := 2 } .empty .empty
    (Program.ofList [43, 91, 45, 93]).validate .strict = .ok () ∧
      (∃ m' w, (m.placed (.ofList [43, 91, 45, 93]) 0).stepped 3 = some m' ∧
        (m.placed (.ofList ([93] ++ [43, 91, 45, 93] ++ [91])) 1).stepped 3 = some w ∧
        Lockstep 1 m' w) ∧
      ∃ fuel w, (m.placed (.ofList ([43, 91, 45, 93] ++ [62, 62])) 0).run fuel =
        (some (.error (.outOfRange 5 2 2)), w) := by
  intro m
  have hstrict : (Program.ofList [43, 91, 45, 93]).validate .strict = .ok () := by decide
  obtain ⟨hinside, hthen⟩ := balanced_fragment_transparent hstrict m
  refine ⟨hstrict, ?_, ?_⟩
  · obtain ⟨w, hw, hl⟩ := hinside [93] [91] 3 _ rfl
    exact ⟨_, w, rfl, hw, hl⟩
  · obtain ⟨fuel, w, hw, -⟩ := (hthen [62, 62]).2.1 5 _ _ rfl 2 _ _ rfl
    exact ⟨fuel, w, hw⟩

end TapeLang.Machine
