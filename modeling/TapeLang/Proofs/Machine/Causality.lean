import TapeLang.Proofs.Machine.Accounting
import TapeLang.Proofs.Machine.Coupling

namespace TapeLang

namespace Device

variable {i : Option Instruction} {d w d' : Device} {f : Except Failure Unit}

theorem Effect.left_le (h : Effect i d f d') : d'.input.left ≤ d.input.left := by
  rcases h.reads_or_ignores with ⟨hd, -⟩ | ⟨r, hr, -⟩
  · exact Nat.le_of_eq (congrArg Source.left hd)
  · have hread := d.input.left_readByte_le
    rwa [hr] at hread

def Recut (d w : Device) : Prop :=
  w = d.withInput w.input ∧ w.input.calls = d.input.calls ∧
    ∃ bytes, d.input.Holds bytes ∧ w.input.Holds bytes

theorem Recut.cell_eq (h : Recut d w) : w.cell = d.cell := by
  rw [h.1]
  rfl

theorem Recut.effect (h : Recut d w) (he : Effect i d f d') :
    ∃ w', Effect i w f w' ∧ Recut d' w' := by
  obtain ⟨hw, hcalls, bytes, hd, hw'⟩ := h
  rw [hw]
  rcases he.reads_or_ignores with ⟨hd', hsame⟩ | ⟨r, hr, -, hsame⟩
  · exact ⟨_, hsame w.input, rfl, hd' ▸ hcalls, bytes, hd' ▸ hd, hw'⟩
  · obtain ⟨s, hs, hsd, hsc⟩ := hd.readByte_eq
    obtain ⟨t, ht, htw, htc⟩ := hw'.readByte_eq
    obtain ⟨rfl, rfl⟩ := Prod.mk.inj (hs.symm.trans hr)
    refine ⟨_, hsame _ _ ht, rfl, ?_, bytes.tail, hsd, htw⟩
    rw [hsc, ← hcalls]
    exact htc

end Device

namespace Machine

open Device Source

/-- Two inputs that agree on their first `k` bytes, of which as many are read of both. -/
def agreeing {a b : List UInt8} {k : Nat} (hk : a.take k = b.take k) : Coupling where
  Rel d w := w = d.withInput w.input ∧
    ∃ n ≤ k, d.input.Holds (a.drop n) ∧ w.input.Holds (b.drop n)
  relabel := id
  Parts f := ∃ shortfall, f = .transfer ⟨.read, shortfall⟩
  Past d := d.input.left < a.length - k
  cell_eq := by
    rintro d w ⟨hw, -⟩
    rw [hw]
    rfl
  effect := by
    rintro i d w d' f ⟨hw, n, hn, hda, hwb⟩ he
    rw [hw, mapError_id]
    rcases he.reads_or_ignores with ⟨hd', hsame⟩ | ⟨r, hr, herror, hsame⟩
    · exact .inl ⟨_, hsame w.input, rfl, n, hn, hd' ▸ hda, hwb⟩
    · obtain ⟨s, hs, hsa, -⟩ := hda.readByte_eq
      obtain ⟨t, ht, htb, -⟩ := hwb.readByte_eq
      rw [List.tail_drop] at hsa htb
      obtain ⟨rfl, rfl⟩ := Prod.mk.inj (hs.symm.trans hr)
      rcases Nat.lt_or_eq_of_le hn with hlt | rfl
      · have hfirst : firstOf (a.drop n) = firstOf (b.drop n) := by
          have hpos : 0 < k - n := Nat.sub_pos_of_lt hlt
          rw [← firstOf_take hpos, ← List.drop_take, hk, List.drop_take, firstOf_take hpos]
        rw [← hfirst] at ht
        exact .inl ⟨_, hsame _ _ ht, rfl, n + 1, hlt, hsa, htb⟩
      · cases hfirst : firstOf (a.drop n) with
        | error e =>
            obtain ⟨-, rfl⟩ := firstOf_eq_error hfirst
            exact .inr (.inl ⟨_, herror _ hfirst, _, rfl⟩)
        | ok c =>
            refine .inr (.inr ?_)
            rw [hsa.left_eq, List.length_drop]
            have hlt := lt_of_firstOf_drop hfirst
            omega
  past_effect := fun hp he => Nat.lt_of_le_of_lt he.left_le hp

def cutting : Coupling :=
  .tight Recut Recut.cell_eq Recut.effect

structure HasRead (m : Machine) (bytes : List UInt8) (reads : Nat) : Prop where
  holds : m.device.input.Holds (bytes.drop reads)
  reads_le : reads ≤ bytes.length
  counted : m.stats.bytesRead = .ofNat reads

section

variable {m m' : Machine} {bytes : List UInt8} {reads : Nat}

theorem HasRead.toNat_eq (h : m.HasRead bytes reads) (hlt : bytes.length < UInt64.size) :
    m.stats.bytesRead.toNat = reads := by
  rw [h.counted]
  exact UInt64.toNat_ofNat_of_lt' (Nat.lt_of_le_of_lt h.reads_le hlt)

theorem Transition.hasRead {r : Except ExecutionError Step} (ht : Transition m r m')
    (h : m.HasRead bytes reads) : ∃ more ≤ 1, m'.HasRead bytes (reads + more) := by
  obtain ⟨s, hs, hdrop, -⟩ := h.holds.readByte_eq
  rw [List.tail_drop] at hdrop
  cases ht.exchange with
  | reads hb hr ho hstats =>
      obtain ⟨hfirst, rfl⟩ := Prod.mk.inj (hs.symm.trans hr)
      refine ⟨1, Nat.le_refl 1, hdrop, lt_of_firstOf_drop hfirst, ?_⟩
      rw [hstats, UInt64.ofNat_add, ← h.counted]
      rfl
  | writes hb hw hi hstats =>
      refine ⟨0, Nat.zero_le 1, hi ▸ h.holds, h.reads_le, ?_⟩
      rw [hstats]
      exact h.counted
  | readFails hb hr ho hstats =>
      obtain ⟨hfirst, rfl⟩ := Prod.mk.inj (hs.symm.trans hr)
      have hnil := (firstOf_eq_error hfirst).1
      refine ⟨0, Nat.zero_le 1, ?_, h.reads_le, hstats ▸ h.counted⟩
      rwa [← List.tail_drop, hnil, List.tail_nil, ← hnil] at hdrop
  | writeFails hb hw hi hstats =>
      exact ⟨0, Nat.zero_le 1, hi ▸ h.holds, h.reads_le, hstats ▸ h.counted⟩
  | quiet _ _ hin _ hread _ =>
      exact ⟨0, Nat.zero_le 1, hin ▸ h.holds, h.reads_le, hread.trans h.counted⟩

theorem hasRead_of_stepped {count : Nat} (h : m.HasRead bytes reads)
    (hm : m.stepped count = some m') : ∃ more ≤ count, m'.HasRead bytes (reads + more) := by
  induction count generalizing m reads with
  | zero =>
      obtain rfl := Option.some.inj hm
      exact ⟨0, Nat.le_refl 0, h⟩
  | succ count ih =>
      obtain ⟨m₁, ht, hm₁⟩ := exists_transition_of_stepped hm
      obtain ⟨one, hone, h₁⟩ := ht.hasRead h
      obtain ⟨more, hmore, h'⟩ := ih h₁ hm₁
      exact ⟨one + more, by omega, by rwa [← Nat.add_assoc]⟩

theorem hasRead_of_run (h : m.HasRead bytes reads) (fuel : Nat) :
    ∃ reads, (m.run fuel).2.HasRead bytes reads := by
  refine run_invariant (P := fun m => ∃ reads, m.HasRead bytes reads) ?_ ?_ ⟨reads, h⟩ fuel
  · rintro m r m' ⟨reads, h⟩ ht
    obtain ⟨more, -, h'⟩ := ht.hasRead h
    exact ⟨_, h'⟩
  · rintro m e ⟨reads, h⟩
    exact ⟨reads, h.holds, h.reads_le, h.counted⟩

theorem hasRead_start (p : Program) (config : Config) {s : Source} (output : Sink)
    (hs : s.Holds bytes) : (start p config s output).HasRead bytes 0 :=
  ⟨hs, Nat.zero_le _, rfl⟩

end

section

variable {a b : List UInt8} {k reads : Nat} (hk : a.take k = b.take k) (ha : k ≤ a.length)
  (hb : k ≤ b.length) {m w : Machine}

include ha in
theorem not_past_of_hasRead (hm : m.HasRead a reads) (hr : reads ≤ k) :
    ¬ (agreeing hk).Past m.device := by
  have hleft := hm.holds.left_eq
  rw [List.length_drop] at hleft
  change ¬ m.device.input.left < a.length - k
  omega

include ha hb in
theorem hasRead_of_couples (h : (agreeing hk).Couples m w) (hm : m.HasRead a reads)
    (hr : reads ≤ k) : w = { m with device := m.device.withInput w.device.input } ∧
      w.HasRead b reads := by
  obtain ⟨hw, hd, n, hn, hda, hwb⟩ := h
  have hlen := hda.length_eq hm.holds
  rw [List.length_drop, List.length_drop] at hlen
  obtain rfl : n = reads := by omega
  refine ⟨?_, hwb, Nat.le_trans hr hb, ?_⟩
  · rw [← hd]
    exact hw
  · rw [hw]
    exact hm.counted

end

theorem input_causal (p : Program) (config : Config) (output : Sink) {a b : List UInt8}
    {k : Nat} (hk : a.take k = b.take k) (ha : k ≤ a.length) (hb : k ≤ b.length)
    {s t : Source} (hs : s.Holds a) (ht : t.Holds b) :
    let first := start p config s output
    let second := start p config t output
    (∀ count m, first.stepped count = some m → ∃ reads ≤ count, m.HasRead a reads ∧
      (a.length < UInt64.size → m.stats.bytesRead.toNat = reads) ∧
      (reads ≤ k → ∃ w, second.stepped count = some w ∧
        w = { m with device := m.device.withInput w.device.input } ∧ w.HasRead b reads)) ∧
    (∀ fuel r m, first.run fuel = (some r, m) →
      (∀ position shortfall, r ≠ .error (.transfer position ⟨.read, shortfall⟩)) →
      ∃ reads, m.HasRead a reads ∧
        (a.length < UInt64.size → m.stats.bytesRead.toNat = reads) ∧
        (reads ≤ k → ∃ w, second.run fuel = (some r, w) ∧
          w = { m with device := m.device.withInput w.device.input } ∧ w.HasRead b reads)) ∧
    ∀ (pieces : List (List UInt8)) (calls : List Call),
      let whole := (start p config (.ofBytes pieces.flatten) output).after calls
      let cut := (start p config (.ofEvents (pieces.map .data)) output).after calls
      (start p config (.ofEvents (pieces.map .data)) output).answers calls =
          (start p config (.ofBytes pieces.flatten) output).answers calls ∧
        cut = { whole with device := whole.device.withInput cut.device.input } ∧
        cut.device.input.left = whole.device.input.left ∧
        cut.device.input.calls = whole.device.input.calls := by
  intro first second
  have hstart : (agreeing hk).Couples first second :=
    ⟨rfl, rfl, 0, Nat.zero_le k, hs, ht⟩
  have hread : first.HasRead a 0 := hasRead_start p config output hs
  refine ⟨?_, ?_, ?_⟩
  · intro count m hm
    obtain ⟨reads, hcount, h⟩ := hasRead_of_stepped hread hm
    rw [Nat.zero_add] at h
    refine ⟨reads, hcount, h, h.toNat_eq, fun hle => ?_⟩
    obtain ⟨w, hw, hc⟩ := (hstart.stepped hm).resolve_right (not_past_of_hasRead hk ha h hle)
    exact ⟨w, hw, hasRead_of_couples hk ha hb hc h hle⟩
  · intro fuel r m hm hr
    obtain ⟨reads, h⟩ := hasRead_of_run hread fuel
    have hrun := hstart.run fuel
    rw [hm] at h hrun
    refine ⟨reads, h, h.toNat_eq, fun hle => ?_⟩
    rcases hrun with ⟨w, hw, hc⟩ | hp | ⟨e, he, f, position, rfl, shortfall, rfl⟩
    · refine ⟨w, ?_, hasRead_of_couples hk ha hb hc h hle⟩
      rw [hw]
      rw [Option.map_some, agreeing, mapError_relabel_id]
    · exact absurd hp (not_past_of_hasRead hk ha h hle)
    · exact absurd (Option.some.inj he) (hr position shortfall)
  · intro pieces calls whole cut
    have hcut : cutting.Couples (start p config (.ofBytes pieces.flatten) output)
        (start p config (.ofEvents (pieces.map .data)) output) :=
      ⟨rfl, rfl, rfl, _, holds_ofBytes _, holds_ofPieces pieces⟩
    obtain ⟨hanswers, hframe, hdevice, hcalls, bytes, hwhole, hpieces⟩ :=
      (Coupling.tight_faithful ..).answers hcut calls
    refine ⟨hanswers, ?_, hpieces.left_eq.trans hwhole.left_eq.symm, hcalls⟩
    rw [← hdevice]
    exact hframe

theorem input_causal_echo :
    [7, 1].take 1 = ([7, 2] : List UInt8).take 1 ∧
      let first := start (.ofList [44, 46]) {} (.ofBytes [7, 1]) .empty
      let second := start (.ofList [44, 46]) {} (.ofEvents [.data [7], .data [], .data [2]]) .empty
      let m := (first.run 3).2
      first.run 3 = (some (.ok m.stats), m) ∧ ∃ w, second.run 3 = (some (.ok m.stats), w) ∧
        w = { m with device := m.device.withInput w.device.input } ∧
        w.device.output.stored = #[7] ∧ w.device.input.Holds [2] := by
  refine ⟨rfl, ?_⟩
  intro first second m
  obtain ⟨-, hrun, -⟩ := input_causal (.ofList [44, 46]) {} .empty (a := [7, 1]) (b := [7, 2])
    (k := 1) rfl (by decide) (by decide) (holds_ofBytes _) (holds_ofPieces [[7], [], [2]])
  obtain ⟨reads, hm, hreads, hsecond⟩ := hrun 3 (.ok m.stats) m rfl nofun
  obtain rfl : 1 = reads := hreads (by decide)
  obtain ⟨w, hw, hframe, hwb⟩ := hsecond (Nat.le_refl 1)
  refine ⟨rfl, w, hw, hframe, ?_, hwb.holds⟩
  rw [hframe]
  rfl

end Machine

end TapeLang
