import TapeLang.Proofs.Machine.Reachable
import TapeLang.Proofs.Stream.Supply

namespace TapeLang.Machine

def Executes (m : Machine) (i : Instruction) : Prop :=
  m.program.code[m.ip]? = some i.byte

instance (m : Machine) (i : Instruction) : Decidable (m.Executes i) :=
  inferInstanceAs (Decidable (_ = _))

variable {m m' : Machine} {i j : Instruction} {b : UInt8}

theorem executes_iff (hb : m.program.code[m.ip]? = some b) :
    m.Executes i ↔ Instruction.ofByte? b = some i := by
  rw [Executes, hb, Option.some.injEq, Instruction.ofByte?_eq_some_iff]

theorem Executes.inj (hi : m.Executes i) (hj : m.Executes j) : i = j :=
  Instruction.byte_inj.1 (Option.some.inj (hi.symm.trans hj))

theorem not_executes_of_halted (hb : m.program.code[m.ip]? = none) : ¬ m.Executes i := by
  rw [Executes, hb]
  exact nofun

inductive Exchange (m : Machine) : Except ExecutionError Step → Machine → Prop
  | reads {m' : Machine} {value : UInt8} (hb : m.Executes .input)
      (hr : m.device.input.readByte = (.ok value, m'.device.input))
      (ho : m'.device.output = m.device.output)
      (hs : m'.stats = m.stats.afterAtom (some .input)) : Exchange m (.ok .executed) m'
  | writes {m' : Machine} (hb : m.Executes .output)
      (hw : m.device.output.writeByte m.device.cell = (.ok (), m'.device.output))
      (hi : m'.device.input = m.device.input)
      (hs : m'.stats = m.stats.afterAtom (some .output)) : Exchange m (.ok .executed) m'
  | readFails {m' : Machine} {e : TransferError} (hb : m.Executes .input)
      (hr : m.device.input.readByte = (.error e, m'.device.input))
      (ho : m'.device.output = m.device.output) (hs : m'.stats = m.stats) :
      Exchange m (.error (.transfer m.ip e)) m'
  | writeFails {m' : Machine} {e : TransferError} (hb : m.Executes .output)
      (hw : m.device.output.writeByte m.device.cell = (.error e, m'.device.output))
      (hi : m'.device.input = m.device.input) (hs : m'.stats = m.stats) :
      Exchange m (.error (.transfer m.ip e)) m'
  | quiet {m' : Machine} {r : Except ExecutionError Step} (hi : ¬ m.Executes .input)
      (ho : ¬ m.Executes .output) (hin : m'.device.input = m.device.input)
      (hout : m'.device.output = m.device.output)
      (hread : m'.stats.bytesRead = m.stats.bytesRead)
      (hwritten : m'.stats.bytesWritten = m.stats.bytesWritten) : Exchange m r m'

theorem Exchange.calm {r : Except ExecutionError Step} {k : Option Instruction}
    (h : ∀ i, m.Executes i ↔ k = some i) (hin : k ≠ some .input) (hout : k ≠ some .output)
    (hi : m'.device.input = m.device.input) (ho : m'.device.output = m.device.output)
    (hread : m'.stats.bytesRead = m.stats.bytesRead)
    (hwritten : m'.stats.bytesWritten = m.stats.bytesWritten) : Exchange m r m' :=
  .quiet (mt (h _).1 hin) (mt (h _).1 hout) hi ho hread hwritten

theorem Transition.exchange {r : Except ExecutionError Step} (h : Transition m r m') :
    Exchange m r m' := by
  cases h with
  | halted hb =>
      exact .quiet (not_executes_of_halted hb) (not_executes_of_halted hb) rfl rfl rfl rfl
  | atom hb ha he =>
      have hat i : m.Executes i ↔ _ := executes_iff hb
      generalize Instruction.ofByte? _ = k at hat he
      cases he with
      | commentary => exact .calm hat nofun nofun rfl rfl rfl rfl
      | increment => exact .calm hat nofun nofun rfl rfl rfl rfl
      | decrement => exact .calm hat nofun nofun rfl rfl rfl rfl
      | moveRight => exact .calm hat nofun nofun rfl rfl rfl rfl
      | moveLeft => exact .calm hat nofun nofun rfl rfl rfl rfl
      | output _ hw => exact .writes ((hat _).2 rfl) hw rfl rfl
      | input _ hr => exact .reads ((hat _).2 rfl) hr rfl rfl
  | atomFails hb ha he =>
      have hat i : m.Executes i ↔ _ := executes_iff hb
      generalize Instruction.ofByte? _ = k at hat he
      cases he with
      | rightEdge => exact .calm hat nofun nofun rfl rfl rfl rfl
      | leftEdge => exact .calm hat nofun nofun rfl rfl rfl rfl
      | outputFails _ hw => exact .writeFails ((hat _).2 rfl) hw rfl rfl
      | inputFails _ hr => exact .readFails ((hat _).2 rfl) hr rfl rfl
  | enterLoop hb => exact .calm (fun i => executes_iff hb) nofun nofun rfl rfl rfl rfl
  | skipLoop hb => exact .calm (fun i => executes_iff hb) nofun nofun rfl rfl rfl rfl
  | unclosed hb => exact .calm (fun i => executes_iff hb) nofun nofun rfl rfl rfl rfl
  | leaveLoop hb => exact .calm (fun i => executes_iff hb) nofun nofun rfl rfl rfl rfl
  | repeatLoop hb => exact .calm (fun i => executes_iff hb) nofun nofun rfl rfl rfl rfl
  | unopened hb => exact .calm (fun i => executes_iff hb) nofun nofun rfl rfl rfl rfl

def Delivers (m : Machine) : Prop :=
  m.Executes .output ∧ m.device.output.receipt = .accepted

instance (m : Machine) : Decidable m.Delivers :=
  inferInstanceAs (Decidable (_ ∧ _))

structure ReadAccount (input : Source) (past : List Machine) (m : Machine) : Prop where
  supply : m.device.input.supply = input.supply.drop (past.countP (·.Executes .input))
  reads_le : past.countP (·.Executes .input) ≤ input.supply.length
  read : m.stats.bytesRead = .ofNat (past.countP (·.Executes .input))

namespace ReadAccount

variable {input : Source} {past : List Machine}

theorem congr (h : ReadAccount input past m)
    (hs : m'.device.input.supply = m.device.input.supply)
    (hr : m'.stats.bytesRead = m.stats.bytesRead) : ReadAccount input past m' :=
  ⟨hs.trans h.supply, h.reads_le, hr.trans h.read⟩

theorem idle (h : ReadAccount input past m) (hi : ¬ m.Executes .input)
    (hs : m'.device.input = m.device.input)
    (hr : m'.stats.bytesRead = m.stats.bytesRead) : ReadAccount input (past ++ [m]) m' := by
  have hcount : (past ++ [m]).countP (·.Executes .input) = past.countP (·.Executes .input) := by
    simp [hi]
  refine ⟨?_, ?_, ?_⟩
  · rw [hcount, hs, h.supply]
  · rw [hcount]
    exact h.reads_le
  · rw [hcount, hr, h.read]

theorem reads {b : Option UInt8} (h : ReadAccount input past m) (hi : m.Executes .input)
    (hs : m.device.input.supply = b :: m'.device.input.supply)
    (hr : m'.stats.bytesRead = m.stats.bytesRead + 1) : ReadAccount input (past ++ [m]) m' := by
  have hcount : (past ++ [m]).countP (·.Executes .input) =
      past.countP (·.Executes .input) + 1 := by
    simp [hi]
  have hdrop := h.supply.symm.trans hs
  refine ⟨?_, ?_, ?_⟩
  · rw [hcount, ← List.tail_drop, hdrop, List.tail_cons]
  · rw [hcount]
    by_contra hlt
    rw [List.drop_eq_nil_of_le (by omega)] at hdrop
    cases hdrop
  · rw [hcount, hr, h.read, UInt64.ofNat_add]
    rfl

theorem reads_add_left (h : ReadAccount input past m) :
    past.countP (·.Executes .input) + (m.device.input.left + m.device.input.claims) =
      input.left + input.claims := by
  have hlen := congrArg List.length h.supply
  have hle := h.reads_le
  rw [List.length_drop, Source.length_supply, Source.length_supply] at hlen
  rw [Source.length_supply] at hle
  omega

theorem toNat_bytesRead (h : ReadAccount input past m) (hlt : past.length < UInt64.size) :
    m.stats.bytesRead.toNat = past.countP (·.Executes .input) := by
  rw [h.read]
  exact UInt64.toNat_ofNat_of_lt' (Nat.lt_of_le_of_lt List.countP_le_length hlt)

end ReadAccount

structure WriteAccount (output : Sink) (past : List Machine) (m : Machine) : Prop where
  claims_le : m.device.output.claims ≤ output.claims
  writes : past.countP (·.Executes .output) + m.device.output.claims =
    past.countP (·.Delivers) + output.claims
  written : m.stats.bytesWritten = .ofNat (past.countP (·.Executes .output))
  stored : m.device.output.stored.toList =
    output.stored.toList ++ (past.filter (·.Delivers)).map (·.device.cell)

namespace WriteAccount

variable {output : Sink} {past : List Machine}

theorem congr (h : WriteAccount output past m)
    (hc : m'.device.output.claims = m.device.output.claims)
    (hs : m'.device.output.stored = m.device.output.stored)
    (hw : m'.stats.bytesWritten = m.stats.bytesWritten) : WriteAccount output past m' := by
  refine ⟨?_, ?_, hw.trans h.written, ?_⟩
  · rw [hc]
    exact h.claims_le
  · rw [hc]
    exact h.writes
  · rw [hs]
    exact h.stored

theorem idle (h : WriteAccount output past m) (ho : ¬ m.Executes .output)
    (hd : m'.device.output = m.device.output)
    (hw : m'.stats.bytesWritten = m.stats.bytesWritten) :
    WriteAccount output (past ++ [m]) m' := by
  have hnot : ¬ m.Delivers := fun hdel => ho hdel.1
  have hcount : (past ++ [m]).countP (·.Executes .output) =
      past.countP (·.Executes .output) := by
    simp [ho]
  have hdelivered : (past ++ [m]).countP (·.Delivers) = past.countP (·.Delivers) := by
    simp [hnot]
  refine ⟨?_, ?_, ?_, ?_⟩
  · rw [hd]
    exact h.claims_le
  · rw [hcount, hdelivered, hd]
    exact h.writes
  · rw [hcount, hw]
    exact h.written
  · rw [hd, h.stored]
    simp [hnot]

theorem writes_step (h : WriteAccount output past m) (ho : m.Executes .output)
    (hst : m.device.output.Stores m.device.cell (.ok ()) m'.device.output)
    (hw : m'.stats.bytesWritten = m.stats.bytesWritten + 1) :
    WriteAccount output (past ++ [m]) m' := by
  have hle := h.claims_le
  have hwrites := h.writes
  have hcount : (past ++ [m]).countP (·.Executes .output) =
      past.countP (·.Executes .output) + 1 := by
    simp [ho]
  have hwritten : m'.stats.bytesWritten =
      .ofNat ((past ++ [m]).countP (·.Executes .output)) := by
    rw [hcount, hw, h.written, UInt64.ofNat_add]
    rfl
  cases hst with
  | accepted hr hs hc =>
      have hdel : m.Delivers := ⟨ho, hr⟩
      have hdelivered : (past ++ [m]).countP (·.Delivers) = past.countP (·.Delivers) + 1 := by
        simp [hdel]
      refine ⟨by omega, by omega, hwritten, ?_⟩
      rw [hs, Array.toList_push, h.stored]
      simp [hdel]
  | claimed hr hs hc =>
      have hdel : ¬ m.Delivers := fun hdel => hr hdel.2
      have hdelivered : (past ++ [m]).countP (·.Delivers) = past.countP (·.Delivers) := by
        simp [hdel]
      refine ⟨by omega, by omega, hwritten, ?_⟩
      rw [hs, h.stored]
      simp [hdel]

theorem size_stored (h : WriteAccount output past m) :
    m.device.output.stored.size = output.stored.size + past.countP (·.Delivers) := by
  have hlen := congrArg List.length h.stored
  simpa [List.countP_eq_length_filter] using hlen

theorem toNat_bytesWritten (h : WriteAccount output past m) (hlt : past.length < UInt64.size) :
    m.stats.bytesWritten.toNat = past.countP (·.Executes .output) := by
  rw [h.written]
  exact UInt64.toNat_ofNat_of_lt' (Nat.lt_of_le_of_lt List.countP_le_length hlt)

end WriteAccount

structure Accounts (input : Source) (output : Sink) (past : List Machine) (m : Machine) :
    Prop where
  read : ReadAccount input past m
  write : WriteAccount output past m

namespace Accounts

variable {input : Source} {output : Sink} {past : List Machine}

theorem start (p : Program) (config : Config) (input : Source) (output : Sink) :
    Accounts input output [] (start p config input output) :=
  ⟨⟨rfl, Nat.zero_le _, rfl⟩, ⟨Nat.le_refl _, rfl, rfl, (List.append_nil _).symm⟩⟩

theorem executed (h : Accounts input output past m) (ht : Transition m (.ok .executed) m') :
    Accounts input output (past ++ [m]) m' := by
  cases ht.exchange with
  | reads hb hr ho hs =>
      have hout : ¬ m.Executes .output := fun hb' => nomatch Executes.inj hb hb'
      rcases (Source.reads hr).supply_eq with ⟨b, -, hsupply⟩ | ⟨e, hbad, -⟩
      · exact ⟨h.read.reads hb hsupply (by rw [hs]; rfl), h.write.idle hout ho (by rw [hs]; rfl)⟩
      · cases hbad
  | writes hb hw hi hs =>
      have hin : ¬ m.Executes .input := fun hb' => nomatch Executes.inj hb hb'
      have hstores := m.device.output.stores m.device.cell
      rw [hw] at hstores
      exact ⟨h.read.idle hin hi (by rw [hs]; rfl),
        h.write.writes_step hb hstores (by rw [hs]; rfl)⟩
  | quiet hi ho hin hout hread hwritten =>
      exact ⟨h.read.idle hi hin hread, h.write.idle ho hout hwritten⟩

theorem failed {e : ExecutionError} (h : Accounts input output past m)
    (ht : Transition m (.error e) m') : Accounts input output past m' := by
  cases ht.exchange with
  | readFails hb hr ho hs =>
      rcases (Source.reads hr).supply_eq with ⟨b, hok, -⟩ | ⟨e, -, hsupply⟩
      · cases hok
      · exact ⟨h.read.congr hsupply (by rw [hs]),
          h.write.congr (by rw [ho]) (by rw [ho]) (by rw [hs])⟩
  | writeFails hb hw hi hs =>
      obtain ⟨hstored, hclaims⟩ := Sink.refused_of_writeByte hw
      exact ⟨h.read.congr (by rw [hi]) (by rw [hs]),
        h.write.congr hclaims.symm hstored (by rw [hs])⟩
  | quiet _ _ hin hout hread hwritten =>
      exact ⟨h.read.congr (by rw [hin]) hread,
        h.write.congr (by rw [hout]) (by rw [hout]) hwritten⟩

theorem after (p : Program) (config : Config) (input : Source) (output : Sink)
    (calls : List Call) :
    Accounts input output ((Machine.start p config input output).history calls)
      ((Machine.start p config input output).after calls) :=
  history_invariant (P := Accounts input output) executed failed
    (fun h => ⟨h.read.congr rfl rfl, h.write.congr rfl rfl rfl⟩)
    (start p config input output) calls

end Accounts

theorem io_accounting (p : Program) (config : Config) (input : Source) (output : Sink)
    (calls : List Call) :
    let m := (start p config input output).after calls
    let past := (start p config input output).history calls
    let reads := past.countP (·.Executes .input)
    let writes := past.countP (·.Executes .output)
    (m.device.input.left ≤ input.left ∧ m.device.input.claims ≤ input.claims ∧
      reads = (input.left - m.device.input.left) +
        (input.claims - m.device.input.claims)) ∧
    (output.stored.size ≤ m.device.output.stored.size ∧
      m.device.output.claims ≤ output.claims ∧
      writes = (m.device.output.stored.size - output.stored.size) +
        (output.claims - m.device.output.claims)) ∧
    m.device.output.stored.toList =
      output.stored.toList ++ (past.filter (·.Delivers)).map (·.device.cell) ∧
    (past.length < UInt64.size →
      m.stats.bytesRead.toNat = reads ∧ m.stats.bytesWritten.toNat = writes ∧
      (∀ bytes, input.Holds bytes →
        m.stats.bytesRead.toNat + m.device.input.left = bytes.length) ∧
      (output.stored = #[] → (∀ e ∈ output.events, e = .accept) →
        m.device.output.stored.size = m.stats.bytesWritten.toNat)) := by
  intro m past reads writes
  have h : Accounts input output past m := .after p config input output calls
  have hleft := Source.left_le_of_drop h.read.supply
  have hclaims := Source.claims_le_of_drop h.read.supply
  have hreads : reads + _ = _ := h.read.reads_add_left
  have hsize := h.write.size_stored
  have hwrites : writes + _ = _ := h.write.writes
  have hclaimsOut := h.write.claims_le
  refine ⟨⟨hleft, hclaims, by omega⟩, ⟨by omega, hclaimsOut, by omega⟩, h.write.stored, ?_⟩
  intro hlt
  have hread : m.stats.bytesRead.toNat = reads := h.read.toNat_bytesRead hlt
  have hwritten : m.stats.bytesWritten.toNat = writes := h.write.toNat_bytesWritten hlt
  refine ⟨hread, hwritten, ?_, ?_⟩
  · intro bytes hbytes
    have hnone := hbytes.claims_eq
    rw [hread, ← hbytes.left_eq]
    omega
  · intro hempty haccept
    have hnone : output.claims = 0 := by
      refine List.count_eq_zero.2 fun hmem => ?_
      cases haccept _ hmem
    rw [hwritten, hsize, hempty, Array.size_empty]
    omega

theorem io_accounting_echo :
    let first := start (.ofList [44, 46, 44]) { tapeLength := 1 } (.ofBytes [7]) .empty
    let m := first.after [.step, .run 2]
    (first.history [.step, .run 2]).length < UInt64.size ∧
      m.stats.bytesRead.toNat + m.device.input.left = 1 ∧
      m.device.output.stored.size = m.stats.bytesWritten.toNat ∧
      m.device.output.stored.toList = [7] := by
  intro first m
  have hlt : (first.history [.step, .run 2]).length < UInt64.size := by decide
  obtain ⟨-, -, hstored, hcounters⟩ := io_accounting (.ofList [44, 46, 44]) { tapeLength := 1 }
    (.ofBytes [7]) .empty [.step, .run 2]
  obtain ⟨-, -, hread, hwritten⟩ := hcounters hlt
  exact ⟨hlt, hread [7] (Source.holds_ofBytes [7]), hwritten rfl nofun, hstored⟩

end TapeLang.Machine
