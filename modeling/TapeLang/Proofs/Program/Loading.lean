import TapeLang.Proofs.Stream.Segment

namespace TapeLang.Loader

inductive Load (l : Loader) : Except LoadError Program → Loader → Prop
  | cached {p : Program} (hp : l.program = some p) (hne : p.isEmpty = false) : Load l (.ok p) l
  | succeeds {g : Segment} {s : Source} (hp : ∀ p, l.program = some p → p.isEmpty = true)
      (hg : g.Spans l.source s) (hf : g.fault? = none) :
      Load l (.ok (.ofList g.bytes))
        ⟨s, some (.ofList g.bytes),
          l.log.push
            (.programLoaded g.bytes.length (Program.ofList g.bytes).instructionCount)⟩
  | fails {g : Segment} {s : Source} {f : Fault}
      (hp : ∀ p, l.program = some p → p.isEmpty = true) (hg : g.Spans l.source s)
      (hf : g.fault? = some f) : Load l (.error ⟨g.bytes.length, f⟩) { l with source := s }

variable {l l' : Loader} {r : Except LoadError Program} {p : Program}

theorem cached?_eq_some_iff : l.cached? = some p ↔ l.program = some p ∧ p.isEmpty = false := by
  simp [cached?, Option.filter_eq_some_iff]

theorem load_of_cached (hp : l.program = some p) (hne : p.isEmpty = false) :
    l.load = (.ok p, l) := by
  rw [load, cached?_eq_some_iff.2 ⟨hp, hne⟩]

theorem load_spec (l : Loader) : Load l l.load.1 l.load.2 := by
  cases hc : l.cached? with
  | some p =>
      obtain ⟨hp, hne⟩ := cached?_eq_some_iff.1 hc
      rw [load_of_cached hp hne]
      exact .cached hp hne
  | none =>
      have hp : ∀ p, l.program = some p → p.isEmpty = true := by
        intro p hp
        cases he : p.isEmpty with
        | true => rfl
        | false =>
            rw [cached?_eq_some_iff.2 ⟨hp, he⟩] at hc
            cases hc
      obtain ⟨g, hg, ho⟩ := l.source.exists_segment_of_drain
      cases hd : l.source.drain with
      | mk outcome s =>
          rw [hd] at hg ho
          simp only [load, hc, hd]
          cases hf : g.fault? with
          | none =>
              simp only [Segment.outcome, hf, List.nil_append] at ho
              subst ho
              exact .succeeds hp hg hf
          | some f =>
              simp only [Segment.outcome, hf, List.nil_append] at ho
              subst ho
              exact .fails hp hg hf

theorem load_of_eq (h : l.load = (r, l')) : Load l r l' := by
  have hspec := l.load_spec
  rwa [h] at hspec

theorem Load.program_eq (h : Load l r l') : l'.program = r.toOption.or l.program := by
  cases h with
  | cached hp => simp [hp, Except.toOption]
  | succeeds => rfl
  | fails => rfl

theorem Load.cached_or_read (h : Load l r l') :
    (∃ p, l.program = some p ∧ p.isEmpty = false ∧ r = .ok p ∧ l' = l) ∨
      ∃ g : Segment, g.Spans l.source l'.source ∧ r = g.result := by
  cases h with
  | cached hp hne => exact .inl ⟨_, hp, hne, rfl, rfl⟩
  | @succeeds g s hp hg hf => exact .inr ⟨g, hg, by rw [Segment.result, hf]⟩
  | @fails g s f hp hg hf => exact .inr ⟨g, hg, by rw [Segment.result, hf]⟩

def loads : (count : Nat) → Loader → List (Except LoadError Program) × Loader
  | 0, l => ([], l)
  | count + 1, l => (l.load.1 :: (loads count l.load.2).1, (loads count l.load.2).2)

theorem loads_of_cached (hp : l.program = some p) (hne : p.isEmpty = false) (count : Nat) :
    l.loads count = (List.replicate count (.ok p), l) := by
  induction count with
  | zero => rfl
  | succ count ih => rw [loads, load_of_cached hp hne, ih, List.replicate_succ]

theorem program_loads (l : Loader) (count : Nat) :
    (l.loads count).2.program =
      ((l.loads count).1.filterMap Except.toOption).getLast?.or l.program := by
  induction count generalizing l with
  | zero => rfl
  | succ count ih =>
      change (l.load.2.loads count).2.program =
        ((l.load.1 :: (l.load.2.loads count).1).filterMap Except.toOption).getLast?.or l.program
      rw [ih, l.load_spec.program_eq, ← Option.or_assoc]
      congr 1
      cases l.load.1 with
      | error => simp [Except.toOption]
      | ok p => simp [Except.toOption, List.getLast?_cons]

/-- Once a program that is not empty has been loaded nothing is read, so the calls that read
come first. -/
theorem exists_chain_of_loads (l : Loader) (count : Nat) :
    ∃ segments again, Segment.Chain l.source segments (l.loads count).2.source ∧
      (l.loads count).1 = segments.map Segment.result ++ again ∧
      ∀ r ∈ again, ∃ p, (l.loads count).2.program = some p ∧ p.isEmpty = false ∧ r = .ok p := by
  induction count generalizing l with
  | zero => exact ⟨[], [], .nil _, rfl, nofun⟩
  | succ count ih =>
      rcases l.load_spec.cached_or_read with ⟨p, hp, hne, -⟩ | ⟨g, hg, hr⟩
      · rw [loads_of_cached hp hne]
        refine ⟨[], List.replicate (count + 1) (.ok p), .nil _, rfl, ?_⟩
        intro r hr
        exact ⟨p, hp, hne, List.eq_of_mem_replicate hr⟩
      · obtain ⟨segments, again, hc, hresults, hagain⟩ := ih l.load.2
        refine ⟨g :: segments, again, .cons hg hc, ?_, hagain⟩
        change l.load.1 :: (l.load.2.loads count).1 = _
        rw [hr, hresults, List.map_cons, List.cons_append]

theorem loadOnce_eq (source : Source) : loadOnce source = (ofSource source).load := by
  have h := (ofSource source).load_spec.program_eq
  rw [loadOnce]
  split
  · rename_i hl
    exact hl.symm
  · rename_i p l hl
    rw [hl] at h
    have hp : l.program = some p := h
    rw [hl, hp, Option.getD_some]

theorem cache_kept_iff {source : Source} {count : Nat} {p : Program} {l : Loader}
    (h : ((ofSource source).loads count).2.load = (.ok p, l)) :
    l.program = some p ∧
    ((∀ more, (l.loads more).1 = List.replicate more (.ok p) ∧
        (l.loads more).2.source = l.source ∧ (l.loads more).2.program = some p) ↔
      p.isEmpty = false) ∧
    (p.isEmpty = true → ∃ segment : Segment, segment.Spans l.source l.load.2.source ∧
      l.load.1 = segment.result ∧ l.source.calls < l.load.2.source.calls) := by
  have hp : l.program = some p := (load_of_eq h).program_eq
  have again (he : p.isEmpty = true) : ∃ segment : Segment,
      segment.Spans l.source l.load.2.source ∧ l.load.1 = segment.result ∧
        l.source.calls < l.load.2.source.calls := by
    rcases l.load_spec.cached_or_read with ⟨q, hq, hne, -⟩ | ⟨g, hg, hr⟩
    · obtain rfl := Option.some.inj (hp.symm.trans hq)
      rw [he] at hne
      cases hne
    · exact ⟨g, hg, hr, hg.calls_lt⟩
  refine ⟨hp, ⟨?_, ?_⟩, again⟩
  · intro hkept
    cases he : p.isEmpty with
    | false => rfl
    | true =>
        obtain ⟨-, -, -, hlt⟩ := again he
        have hsource : l.load.2.source = l.source := (hkept 1).2.1
        rw [hsource] at hlt
        exact absurd hlt (Nat.lt_irrefl _)
  · intro hne more
    rw [loads_of_cached hp hne]
    exact ⟨rfl, rfl, hp⟩

theorem cache_kept_iff_after_failure :
    let source := Source.ofEvents
      [.data [62], .fail ⟨.other "BrokenPipe", "gone"⟩, .data [43], .claim 0, .data [45]]
    let l : Loader := ⟨⟨[.data [45]], 4⟩, some ⟨#[43]⟩, #[.programLoaded 1 1]⟩
    ((ofSource source).loads 1).2.load = (.ok ⟨#[43]⟩, l) ∧ l.program = some ⟨#[43]⟩ ∧
      ∀ more, (l.loads more).1 = List.replicate more (.ok ⟨#[43]⟩) ∧
        (l.loads more).2.source = l.source ∧ (l.loads more).2.program = some ⟨#[43]⟩ := by
  intro source l
  have h : ((ofSource source).loads 1).2.load = (.ok ⟨#[43]⟩, l) := rfl
  obtain ⟨hp, hkept, -⟩ := cache_kept_iff h
  exact ⟨h, hp, hkept.2 rfl⟩

theorem empty_program_loaded_again :
    let l := (ofSource (.ofEvents [.claim 0, .data [43]])).load.2
    (ofSource (.ofEvents [.claim 0, .data [43]])).load.1 = .ok ⟨#[]⟩ ∧
      l.program = some ⟨#[]⟩ ∧ l.source.calls = 1 ∧ l.load.1 = .ok ⟨#[43]⟩ ∧
      l.load.2.program = some ⟨#[43]⟩ ∧ l.load.2.source.calls = 3 :=
  ⟨rfl, rfl, rfl, rfl, rfl, rfl⟩

/-- A byte that has left the stream is in the result of a call or in its count of lost bytes,
once and in order. -/
theorem loads_conserve_bytes (source : Source) (count : Nat) :
    let l := ((ofSource source).loads count).2
    let results := ((ofSource source).loads count).1
    (∃ segments again, Segment.Chain source segments l.source ∧
      results = segments.map Segment.result ++ again ∧
      (∀ r ∈ again, ∃ p, l.program = some p ∧ p.isEmpty = false ∧ r = .ok p) ∧
      source.events.flatMap SourceEvent.loaded =
        segments.flatMap Segment.bytes ++ l.source.events.flatMap SourceEvent.loaded ∧
      l.source.calls = source.calls + ((segments.flatMap Segment.bytes).length +
        (segments.flatMap Segment.passed).countP SourceEvent.isInterruption + segments.length)) ∧
    l.program = (results.filterMap Except.toOption).getLast? ∧
    ((∃ p, l.program = some p ∧ p.isEmpty = false ∧ l.load = (.ok p, l)) ∨
      ∃ segment : Segment, segment.Spans l.source l.load.2.source ∧ l.load.1 = segment.result) ∧
    (∀ e l', l.load = (.error e, l') → l'.program = l.program) ∧
    loadOnce source = (ofSource source).load := by
  intro l results
  refine ⟨?_, ?_, ?_, ?_, loadOnce_eq source⟩
  · obtain ⟨segments, again, hc, hresults, hagain⟩ := (ofSource source).exists_chain_of_loads count
    exact ⟨segments, again, hc, hresults, hagain, hc.loaded_eq, hc.calls_eq⟩
  · exact ((ofSource source).program_loads count).trans (Option.or_none)
  · rcases l.load_spec.cached_or_read with ⟨p, hp, hne, -⟩ | hread
    · exact .inl ⟨p, hp, hne, load_of_cached hp hne⟩
    · exact .inr hread
  · intro e l' h
    exact (load_of_eq h).program_eq

end TapeLang.Loader
