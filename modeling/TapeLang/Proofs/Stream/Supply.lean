import TapeLang.Proofs.Stream.Erasure

namespace TapeLang

namespace Source

variable {s s' : Source} {bytes : List UInt8}

def claims (s : Source) : Nat :=
  s.events.count (.claim 1)

theorem claims_eq_countP (s : Source) : s.claims = s.supply.countP Option.isNone := by
  rw [claims, supply, List.countP_flatMap]
  induction s.events with
  | nil => rfl
  | cons e rest ih =>
      have he : e.supply.countP Option.isNone = [e].count (.claim 1) := by
        cases e with
        | data bytes => simp [SourceEvent.supply, List.countP_map]
        | claim n => by_cases h : n = 1 <;> simp [SourceEvent.supply, h]
        | fail => rfl
      rw [List.map_cons, List.sum_cons, ← ih, Function.comp_apply, he, ← List.count_append,
        List.singleton_append]

theorem length_supply (s : Source) : s.supply.length = s.left + s.claims := by
  rw [left_eq_countP, claims_eq_countP, List.length_eq_countP_add_countP Option.isSome]
  congr 2
  funext b
  cases b <;> rfl

theorem Reads.supply_eq {r : Except TransferError UInt8} (h : s.Reads r s') :
    (∃ b, r = .ok (b.getD 0) ∧ s.supply = b :: s'.supply) ∨
      ∃ e, r = .error e ∧ s'.supply = s.supply := by
  cases h with
  | given hs => exact .inl ⟨_, rfl, hs⟩
  | exhausted hs hs' => exact .inr ⟨_, rfl, hs'.trans hs.symm⟩
  | broken hs => exact .inr ⟨_, rfl, hs⟩

theorem left_le_of_drop {n : Nat} (h : s'.supply = s.supply.drop n) : s'.left ≤ s.left := by
  rw [left_eq_countP, left_eq_countP, h]
  exact (List.drop_sublist n _).countP_le

theorem claims_le_of_drop {n : Nat} (h : s'.supply = s.supply.drop n) : s'.claims ≤ s.claims := by
  rw [claims_eq_countP, claims_eq_countP, h]
  exact (List.drop_sublist n _).countP_le

theorem left_readByte_le (s : Source) : s.readByte.2.left ≤ s.left := by
  cases h : s.readByte with
  | mk r s' =>
      rcases (reads h).supply_eq with ⟨b, -, hs⟩ | ⟨e, -, hs⟩
      · have hdrop : s'.supply = s.supply.drop 1 := by rw [hs, List.drop_one, List.tail_cons]
        exact left_le_of_drop hdrop
      · have hdrop : s'.supply = s.supply.drop 0 := hs
        exact left_le_of_drop hdrop

/-- The source is a plain text of these bytes, however it is cut into events. -/
def Holds (s : Source) (bytes : List UInt8) : Prop :=
  ∃ pieces : List (List UInt8), s.events = pieces.map .data ∧ pieces.flatten = bytes

theorem holds_ofBytes (bytes : List UInt8) : (ofBytes bytes).Holds bytes :=
  ⟨[bytes], rfl, List.flatten_singleton⟩

theorem holds_ofPieces (pieces : List (List UInt8)) :
    (ofEvents (pieces.map .data)).Holds pieces.flatten :=
  ⟨pieces, rfl, rfl⟩

theorem Holds.supply_eq (h : s.Holds bytes) : s.supply = bytes.map some := by
  obtain ⟨pieces, hs, rfl⟩ := h
  rw [supply, hs, List.flatMap_map, List.map_flatten, List.flatMap_def]
  rfl

theorem Holds.left_eq (h : s.Holds bytes) : s.left = bytes.length := by
  rw [left_eq_countP, h.supply_eq, List.countP_map, List.countP_eq_length.2]
  intro b _
  rfl

theorem Holds.length_eq {more : List UInt8} (h : s.Holds bytes) (h' : s.Holds more) :
    bytes.length = more.length :=
  h.left_eq.symm.trans h'.left_eq

theorem Holds.claims_eq (h : s.Holds bytes) : s.claims = 0 := by
  rw [claims_eq_countP, h.supply_eq, List.countP_map, List.countP_eq_zero]
  intro b _
  exact Bool.false_ne_true

def firstOf : List UInt8 → Except TransferError UInt8
  | [] => .error ⟨.read, .count 0⟩
  | b :: _ => .ok b

theorem firstOf_eq_error {e : TransferError} (h : firstOf bytes = .error e) :
    bytes = [] ∧ e = ⟨.read, .count 0⟩ := by
  cases bytes with
  | nil => exact ⟨rfl, (Except.error.inj h).symm⟩
  | cons => cases h

theorem lt_of_firstOf_drop {n : Nat} {b : UInt8} (h : firstOf (bytes.drop n) = .ok b) :
    n < bytes.length := by
  rcases Nat.lt_or_ge n bytes.length with hlt | hle
  · exact hlt
  · rw [List.drop_eq_nil_of_le hle] at h
    cases h

theorem firstOf_take {n : Nat} (h : 0 < n) : firstOf (bytes.take n) = firstOf bytes := by
  obtain ⟨n, rfl⟩ : ∃ m, n = m + 1 := ⟨n - 1, by omega⟩
  cases bytes with
  | nil => rfl
  | cons => rfl

theorem Holds.readByte_eq (h : s.Holds bytes) :
    ∃ s', s.readByte = (firstOf bytes, s') ∧ s'.Holds bytes.tail ∧ s'.calls = s.calls + 1 := by
  obtain ⟨events, calls⟩ := s
  obtain ⟨pieces, rfl, rfl⟩ := h
  induction pieces with
  | nil => exact ⟨_, rfl, ⟨[], rfl, rfl⟩, rfl⟩
  | cons piece pieces ih =>
      cases piece with
      | nil => exact ih
      | cons c piece => exact ⟨_, rfl, ⟨piece :: pieces, rfl, rfl⟩, rfl⟩

end Source

namespace Sink

variable {s s' : Sink} {value : UInt8}

def claims (s : Sink) : Nat :=
  s.events.count (.claim 1)

def receipt (s : Sink) : Receipt :=
  (receiptAfter s.calls s.events).1

theorem claims_receiptAfter (calls : Nat) (events : List SinkEvent) :
    events.count (.claim 1) = (receiptAfter calls events).2.1.count (.claim 1) +
      if (receiptAfter calls events).1 = .count 1 then 1 else 0 := by
  induction events generalizing calls with
  | nil => rfl
  | cons e rest ih =>
      cases e with
      | accept => simp [receiptAfter]
      | claim n => simp [receiptAfter, List.count_cons]
      | fail f =>
          have hne : SinkEvent.fail f ≠ .claim 1 := by
            intro h
            cases h
          rw [List.count_cons_of_ne hne, receiptAfter]
          split
          · exact ih (calls + 1)
          · rfl

inductive Stores (s : Sink) (value : UInt8) : Except TransferError Unit → Sink → Prop
  | accepted {s' : Sink} (hr : s.receipt = .accepted) (hs : s'.stored = s.stored.push value)
      (hc : s.claims = s'.claims) : Stores s value (.ok ()) s'
  | claimed {s' : Sink} (hr : s.receipt ≠ .accepted) (hs : s'.stored = s.stored)
      (hc : s.claims = s'.claims + 1) : Stores s value (.ok ()) s'
  | refused {s' : Sink} {e : TransferError} (hs : s'.stored = s.stored)
      (hc : s.claims = s'.claims) : Stores s value (.error e) s'

theorem stores (s : Sink) (value : UInt8) :
    s.Stores value (s.writeByte value).1 (s.writeByte value).2 := by
  obtain ⟨events, stored, calls⟩ := s
  have hclaims := claims_receiptAfter calls events
  rw [writeByte]
  split
  · rename_i hr
    rw [hr] at hclaims
    exact .accepted (congrArg Prod.fst hr) rfl hclaims
  · rename_i hr
    rw [hr] at hclaims
    refine .claimed ?_ rfl hclaims
    rw [receipt, hr]
    intro h
    cases h
  · rename_i n events' calls' hn hr
    rw [hr, if_neg (fun h => hn (by cases h; rfl))] at hclaims
    exact .refused rfl hclaims
  · rename_i hr
    rw [hr] at hclaims
    exact .refused rfl hclaims

theorem refused_of_writeByte {e : TransferError} (h : s.writeByte value = (.error e, s')) :
    s'.stored = s.stored ∧ s.claims = s'.claims := by
  have hstores := s.stores value
  rw [h] at hstores
  cases hstores with
  | refused hs hc => exact ⟨hs, hc⟩

end Sink

end TapeLang
