/-
  ContextFree/Proofs/Reversal.lean
  ================================
  **The conversion can be undone**: unfolding the non-terminals that it has added
  gives back the right-hand sides of each left-hand side, in order
  (`toChomsky_unfolds`).

  A link has one rule because its name is handed out once, a preterminal because it
  has only its terminal.  The first rule of a chain unfolds to the right-hand side
  that was split, by induction along the chain, and a right-hand side with
  preterminals to the one with the terminals.  Both passes keep the order of the
  rules of a left-hand side, and no two of them become equal: what unfolds to
  different strings is different.
-/
import ContextFree.Proofs.Declarations
import ContextFree.Proofs.Unfolding

namespace ContextFree

open NameSupply

namespace Grammar

variable {g : Grammar} {f : NameSupply}

/-- The non-terminals of `h` that `g` does not have. -/
def newSymbols (g h : Grammar) : Set Symbol := {X | X ∈ h.nonterminals ∧ X ∉ g.nonterminals}

/-! ### Chains -/

section Chains

variable {N : Set Symbol} {R : Set Rule} {φ : Symbol → List Symbol}

/-- The first rule of a chain unfolds to the right-hand side that was split. -/
theorem exists_splitRule_eq_cons {A : Symbol} {r : Rhs} {f : NameSupply}
    (links : ∀ name ∈ (run (chainCalls r) f).1, Symbol.nonterminal name ∈ N)
    (sub : ∀ s ∈ (splitRule A r f).1, s ∈ R) (symbols : ∀ x ∈ r, Unfolds N R [x] (φ x)) :
    ∃ u rest, (splitRule A r f).1 = ⟨A, u⟩ :: rest ∧ Unfolds N R u (r.flatMap φ) := by
  fun_induction splitRule A r f with
  | case1 A s t u rest f name f' hnext chain f'' hchain ih =>
    rw [hchain] at ih
    have first : (f.next "X").1 = name := congrArg Prod.fst hnext
    have later : (f.next "X").2 = f' := congrArg Prod.snd hnext
    rw [chainCalls_cons] at links
    simp only [run, Call.answer, first, later] at links
    obtain ⟨hX, links⟩ := List.forall_mem_cons.1 links
    obtain ⟨_, sub⟩ := List.forall_mem_cons.1 sub
    obtain ⟨hs, symbols⟩ := List.forall_mem_cons.1 symbols
    obtain ⟨v, tail, rfl, unfolds⟩ := ih links sub symbols
    refine ⟨[s, .nonterminal name], _, rfl, ?_⟩
    -- The link unfolds to what the rest of the chain stands for.
    rw [List.flatMap_cons]
    exact hs.append (unfolds.ofRule hX (sub _ List.mem_cons_self))
  | case2 A r f _ => exact ⟨r, [], rfl, Unfolds.flatMap symbols⟩

theorem forall₂_unfolds_splitRules {rs : List Rule} {f : NameSupply}
    (links : ∀ name ∈ (run (rs.flatMap fun r => chainCalls r.rhs) f).1,
      Symbol.nonterminal name ∈ N)
    (sub : ∀ s ∈ (splitRules rs f).1, s ∈ R)
    (symbols : ∀ r ∈ rs, ∀ x ∈ r.rhs, Unfolds N R [x] (φ x)) {A : Symbol} (hA : A ∉ N) :
    List.Forall₂ (Unfolds N R) (rhssOf A (splitRules rs f).1)
      ((rhssOf A rs).map (List.flatMap φ)) := by
  induction rs generalizing f with
  | nil => exact List.Forall₂.nil
  | cons r rs ih =>
    have step : (splitRules (r :: rs) f).1 =
        (splitRule r.lhs r.rhs f).1 ++ (splitRules rs (splitRule r.lhs r.rhs f).2).1 := rfl
    rw [step] at sub ⊢
    rw [List.flatMap_cons, run_append, List.forall_mem_append, ← snd_splitRule r.lhs] at links
    obtain ⟨hr, hrs⟩ := List.forall_mem_append.1 sub
    obtain ⟨first, later⟩ := List.forall_mem_cons.1 symbols
    obtain ⟨u, chain, heq, unfolds⟩ := exists_splitRule_eq_cons links.1 hr first
    have rest := ih links.2 hrs later
    -- The rules behind the first one belong to links.
    have own : rhssOf A chain = [] := by
      have lhss := map_lhs_splitRule r.lhs r.rhs f
      rw [heq, List.map_cons] at lhss
      refine rhssOf_eq_nil fun hmem => ?_
      rw [(List.cons.inj lhss).2] at hmem
      obtain ⟨name, hname, rfl⟩ := List.mem_map.1 hmem
      exact hA (links.1 name hname)
    rw [heq, rhssOf_append, rhssOf_cons, own, rhssOf_cons]
    split
    · exact List.Forall₂.cons unfolds rest
    · exact rest

end Chains

/-! ### Preterminals -/

theorem rhssOf_separatedRules {ps : Preterminals} {rs : List Rule} {A : Symbol}
    (hA : A ∉ ps.map Prod.snd) : rhssOf A (separatedRules ps rs) =
      (rhssOf A rs).map fun r => (Rule.separate ps ⟨A, r⟩).rhs := by
  have none : rhssOf A (ps.map fun p => (⟨p.2, [p.1]⟩ : Rule)) = [] := by
    refine rhssOf_eq_nil ?_
    rwa [List.map_map]
  rw [separatedRules, rhssOf_append, none, List.append_nil]
  induction rs with
  | nil => rfl
  | cons r rs ih =>
    rw [List.map_cons, rhssOf_cons, lhs_separate, ih, rhssOf_cons]
    split
    · rename_i h
      rw [← h, List.map_cons]
    · rfl

theorem rhssOf_preterminal {ps : Preterminals} {rs : List Rule} (nodup : (ps.map Prod.snd).Nodup)
    {p : Symbol × Symbol} (hp : p ∈ ps) (hrs : p.2 ∉ rs.map Rule.lhs) :
    rhssOf p.2 (separatedRules ps rs) = [[p.1]] := by
  have old : rhssOf p.2 (rs.map (Rule.separate ps)) = [] := by
    refine rhssOf_eq_nil ?_
    simpa only [List.map_map, Function.comp_def, lhs_separate] using hrs
  have one : (rhssOf p.2 (ps.map fun q => (⟨q.2, [q.1]⟩ : Rule))).length = 1 := by
    rw [length_rhssOf, List.map_map]
    exact List.count_eq_one_of_mem nodup (List.mem_map_of_mem hp)
  obtain ⟨r, hr⟩ := List.length_eq_one_iff.1 one
  have own : [p.1] ∈ rhssOf p.2 (ps.map fun q => (⟨q.2, [q.1]⟩ : Rule)) :=
    mem_rhssOf.2 (List.mem_map.2 ⟨p, hp, rfl⟩)
  rw [hr] at own
  rw [separatedRules, rhssOf_append, old, hr, List.mem_singleton.1 own]
  rfl

/-! ### The new non-terminals -/

theorem rhss_separateTerminals (g : Grammar) (f : NameSupply) (A : Symbol) :
    (g.separateTerminals f).1.rhss A = Distinct.ofList
      (rhssOf A (separatedRules (allocatePreterminals g.longTerminals f).1 g.rules)) := by
  rw [separateTerminals_eq_addRules, rhss_addRules_ofSymbols]

theorem rhss_toChomsky (g : Grammar) (f : NameSupply) (A : Symbol) :
    (g.toChomsky f).1.rhss A = Distinct.ofList (rhssOf A (g.chomskyRules f)) := by
  rw [toChomsky_eq_addRules, rhss_addRules_ofSymbols]

theorem mem_ruleSet_toChomsky {r : Rule} :
    r ∈ (g.toChomsky f).1.ruleSet ↔ r ∈ g.chomskyRules f := by
  rw [ruleSet_toChomsky]
  rfl

section

variable (hg : g.WellFormed) (hf : ∀ x, g.Declares x → x.name ∈ f.used)
include hg hf

theorem mentionsOnly_ruleSet : MentionsOnly f.known g.ruleSet := fun r hr =>
  ⟨Or.inr (hf r.lhs (Or.inl (hg.lhs_mem_of_mem_rhss hr))),
    fun x hx => Or.inr (hf x (hg.declares r.lhs r.rhs hr x hx))⟩

/-- New are the preterminals and the links. -/
theorem mem_newSymbols_toChomsky {X : Symbol} : X ∈ newSymbols g (g.toChomsky f).1 ↔
    X ∈ (allocatePreterminals g.longTerminals f).1.map Prod.snd ∨
      X ∈ (g.linkNames f).map .nonterminal := by
  have mem := hg.mem_nonterminals_toChomsky (fun a ha => hf a (Or.inr ha)) (x := X)
  constructor
  · rintro ⟨hX, hnew⟩
    exact (mem.1 hX).resolve_left hnew
  · intro hX
    refine ⟨mem.2 (Or.inr hX), fun hold => ?_⟩
    have hknown : X ∈ f.known := Or.inr (hf X (Or.inl hold))
    rcases hX with hX | hX
    · obtain ⟨p, hp, rfl⟩ := List.mem_map.1 hX
      exact (outside_allocatePreterminals f).not_mem p hp hknown
    · obtain ⟨name, hname, rfl⟩ := List.mem_map.1 hX
      exact not_mem_known_of_mem_linkNames hname (known_subset_separateTerminals g f hknown)

theorem rhss_preterminal {p : Symbol × Symbol}
    (hp : p ∈ (allocatePreterminals g.longTerminals f).1) :
    (g.separateTerminals f).1.rhss p.2 = [[p.1]] := by
  have outside := outside_allocatePreterminals (g := g) f
  rw [rhss_separateTerminals, rhssOf_preterminal outside.nodup_snd hp]
  · rfl
  · intro hmem
    exact outside.not_mem p hp (Or.inr (hf p.2 (Or.inl (hg.mem_nonterminals_of_mem_lhs hmem))))

theorem preterminal_mem_rules {p : Symbol × Symbol}
    (hp : p ∈ (allocatePreterminals g.longTerminals f).1) :
    (⟨p.2, [p.1]⟩ : Rule) ∈ (g.separateTerminals f).1.rules := by
  rw [mem_rules, rhss_preterminal hg hf hp]
  exact List.mem_singleton_self _

/-- Neither side of a rule with preterminals mentions a link. -/
theorem not_mem_linkNames_of_mem_rules {r : Rule} (hr : r ∈ (g.separateTerminals f).1.rules)
    {X : Symbol} (hX : X = r.lhs ∨ X ∈ r.rhs) : X ∉ (g.linkNames f).map .nonterminal := by
  obtain ⟨hlhs, hrhs⟩ :=
    mentionsOnly_separateTerminals (mentionsOnly_ruleSet hg hf) r (mem_rules.1 hr)
  have known : X ∈ (g.separateTerminals f).2.known := by
    rcases hX with rfl | hX
    · exact hlhs
    · exact hrhs X hX
  intro hlink
  obtain ⟨name, hname, rfl⟩ := List.mem_map.1 hlink
  exact not_mem_known_of_mem_linkNames hname known

theorem not_mem_lhs_of_mem_linkNames {X : Symbol} (hX : X ∈ (g.linkNames f).map .nonterminal) :
    X ∉ (g.separateTerminals f).1.rules.map Rule.lhs := by
  intro hmem
  obtain ⟨r, hr, rfl⟩ := List.mem_map.1 hmem
  exact not_mem_linkNames_of_mem_rules hg hf hr (Or.inl rfl) hX

/-- A preterminal has one rule before the rules are split, and a link gets one then. -/
theorem count_lhs_chomskyRules {X : Symbol} (hX : X ∈ newSymbols g (g.toChomsky f).1) :
    ((g.chomskyRules f).map Rule.lhs).count X = 1 := by
  rw [(perm_lhs_chomskyRules g f).count_eq, List.count_append]
  rcases (mem_newSymbols_toChomsky hg hf).1 hX with hX | hX
  · obtain ⟨p, hp, rfl⟩ := List.mem_map.1 hX
    have rule := preterminal_mem_rules hg hf hp
    rw [← length_rhssOf, rhssOf_rules, rhss_preterminal hg hf hp,
      List.count_eq_zero.2 (not_mem_linkNames_of_mem_rules hg hf rule (Or.inl rfl))]
    rfl
  · rw [List.count_eq_zero.2 (not_mem_lhs_of_mem_linkNames hg hf hX),
      List.count_eq_one_of_mem (nodup_links g f) hX]

theorem exists_rhssOf_chomskyRules {X : Symbol} (hX : X ∈ newSymbols g (g.toChomsky f).1) :
    ∃ r, rhssOf X (g.chomskyRules f) = [r] := by
  rw [← List.length_eq_one_iff, length_rhssOf]
  exact count_lhs_chomskyRules hg hf hX

/-- A new non-terminal has one right-hand side. -/
theorem exists_rhss_toChomsky {X : Symbol} (hX : X ∈ newSymbols g (g.toChomsky f).1) :
    ∃ r, (g.toChomsky f).1.rhss X = [r] := by
  obtain ⟨r, hr⟩ := exists_rhssOf_chomskyRules hg hf hX
  refine ⟨r, ?_⟩
  rw [rhss_toChomsky, hr]
  rfl

theorem deterministic_toChomsky :
    Deterministic (newSymbols g (g.toChomsky f).1) (g.toChomsky f).1.ruleSet := by
  intro X hX r s hr hs
  obtain ⟨t, ht⟩ := exists_rhss_toChomsky hg hf hX
  have only : ∀ u, (⟨X, u⟩ : Rule) ∈ (g.toChomsky f).1.ruleSet → u = t := by
    intro u hu
    have hu : u ∈ (g.toChomsky f).1.rhss X := hu
    rw [ht] at hu
    exact List.mem_singleton.1 hu
  rw [only r hr, only s hs]

/-! ### Unfolding -/

/-- Before the rules are split, each symbol unfolds to what it stands for. -/
theorem unfolds_meaning {r : Rule} (hr : r ∈ (g.separateTerminals f).1.rules) {x : Symbol}
    (hx : x ∈ r.rhs) : Unfolds (newSymbols g (g.toChomsky f).1) (g.toChomsky f).1.ruleSet [x]
      ((allocatePreterminals g.longTerminals f).1.meaning x) := by
  have outside := outside_allocatePreterminals (g := g) f
  by_cases hpre : x ∈ (allocatePreterminals g.longTerminals f).1.map Prod.snd
  · have hnew := (mem_newSymbols_toChomsky hg hf).2 (Or.inl hpre)
    obtain ⟨p, hp, rfl⟩ := List.mem_map.1 hpre
    have kept : (⟨p.2, [p.1]⟩ : Rule) ∈ g.chomskyRules f :=
      (short_mem_splitRules (u := [p.1]) (Nat.le_refl 1)).2 (preterminal_mem_rules hg hf hp)
    have terminal : ∀ y ∈ [p.1], y ∉ newSymbols g (g.toChomsky f).1 := by
      refine List.forall_mem_singleton.2 fun hmem => ?_
      have hnt := (hg.toChomsky fun a ha => hf a (Or.inr ha)).isNonterminal_of_mem _ hmem.1
      have hterm := (mem_longTerminals.1 (mem_longTerminals_of_mem hp)).1
      exact Symbol.not_isTerminal hnt hterm
    rw [Preterminals.meaning_of_mem outside.nodup_snd hp]
    exact Unfolds.ofRule hnew (mem_ruleSet_toChomsky.2 kept) (Unfolds.refl terminal)
  · rw [Preterminals.meaning_of_not_mem hpre]
    refine Unfolds.refl (List.forall_mem_singleton.2 fun hnew => ?_)
    exact ((mem_newSymbols_toChomsky hg hf).1 hnew).elim hpre
      (not_mem_linkNames_of_mem_rules hg hf hr (Or.inr hx))

/-- Preterminals make no two right-hand sides of a left-hand side equal. -/
theorem map_flatMap_meaning_rhss_separateTerminals {A : Symbol} (hA : A ∈ g.nonterminals)
    (nodup : (g.rhss A).Nodup) : ((g.separateTerminals f).1.rhss A).map
      (List.flatMap (allocatePreterminals g.longTerminals f).1.meaning) = g.rhss A := by
  have outside := outside_allocatePreterminals (g := g) f
  have hpre : A ∉ (allocatePreterminals g.longTerminals f).1.map Prod.snd := fun hmem =>
    ((mem_newSymbols_toChomsky hg hf).2 (Or.inl hmem)).2 hA
  have back : ((g.rhss A).map fun r =>
      (Rule.separate (allocatePreterminals g.longTerminals f).1 ⟨A, r⟩).rhs).map
        (List.flatMap (allocatePreterminals g.longTerminals f).1.meaning) = g.rhss A := by
    rw [List.map_map]
    refine (List.map_congr_left fun r hr => ?_).trans (List.map_id _)
    have known := (mentionsOnly_ruleSet hg hf ⟨A, r⟩ hr).2
    exact flatMap_meaning_rhs_separate outside (r := ⟨A, r⟩) known
  have distinct := List.Nodup.of_map _ (back.symm ▸ nodup)
  rw [rhss_separateTerminals, rhssOf_separatedRules hpre, rhssOf_rules,
    Distinct.ofList_of_nodup distinct, back]

theorem forall₂_unfoldsTo_rhssOf {A : Symbol} (hA : A ∈ g.nonterminals)
    (nodup : (g.rhss A).Nodup) :
    List.Forall₂ (UnfoldsTo (newSymbols g (g.toChomsky f).1) (g.toChomsky f).1.ruleSet)
      (rhssOf A (g.chomskyRules f)) (g.rhss A) := by
  have links : ∀ name ∈ g.linkNames f,
      Symbol.nonterminal name ∈ newSymbols g (g.toChomsky f).1 := fun name hname =>
    (mem_newSymbols_toChomsky hg hf).2 (Or.inr (List.mem_map_of_mem hname))
  have unfolds := forall₂_unfolds_splitRules links
    (fun s hs => mem_ruleSet_toChomsky.2 hs)
    (fun r hr x hx => unfolds_meaning hg hf hr hx) (fun hnew => hnew.2 hA)
  rw [rhssOf_rules, map_flatMap_meaning_rhss_separateTerminals hg hf hA nodup] at unfolds
  exact unfolds.imp fun u v huv => huv.unfoldsTo (deterministic_toChomsky hg hf)

theorem nodup_rhssOf_chomskyRules (nodup : ∀ A, (g.rhss A).Nodup) (A : Symbol) :
    (rhssOf A (g.chomskyRules f)).Nodup := by
  by_cases hA : A ∈ g.nonterminals
  · exact nodup_of_unfoldsTo (forall₂_unfoldsTo_rhssOf hg hf hA (nodup A)) (nodup A)
  · by_cases hnew : A ∈ newSymbols g (g.toChomsky f).1
    · obtain ⟨r, hr⟩ := exists_rhssOf_chomskyRules hg hf hnew
      rw [hr]
      exact List.nodup_singleton r
    · have none : A ∉ (g.chomskyRules f).map Rule.lhs := by
        refine fun hmem => hnew ⟨?_, hA⟩
        rw [toChomsky_eq_addRules]
        exact mem_nonterminals_addRules.2 (Or.inr hmem)
      rw [rhssOf_eq_nil none]
      exact List.nodup_nil

theorem rhss_toChomsky_eq_rhssOf (nodup : ∀ A, (g.rhss A).Nodup) (A : Symbol) :
    (g.toChomsky f).1.rhss A = rhssOf A (g.chomskyRules f) := by
  rw [rhss_toChomsky]
  exact Distinct.ofList_of_nodup (nodup_rhssOf_chomskyRules hg hf nodup A)

theorem perm_rules_toChomsky (nodup : ∀ A, (g.rhss A).Nodup) :
    (g.toChomsky f).1.rules.Perm (g.chomskyRules f) := by
  rw [toChomsky_eq_addRules]
  exact perm_rules_addRules_ofSymbols _ _ _ (nodup_rhssOf_chomskyRules hg hf nodup)

/-! ### Proxies and links -/

/-- The preterminals are the new symbols with a terminal as their right-hand side. -/
theorem rhss_eq_terminal_iff {X a : Symbol} (hX : X ∈ newSymbols g (g.toChomsky f).1) :
    (g.toChomsky f).1.rhss X = [[a]] ↔
      (a, X) ∈ (allocatePreterminals g.longTerminals f).1 := by
  obtain ⟨r, hr⟩ := exists_rhss_toChomsky hg hf hX
  have listed : (g.toChomsky f).1.rhss X = [[a]] ↔
      (⟨X, [a]⟩ : Rule) ∈ (g.toChomsky f).1.ruleSet := by
    have mem : (⟨X, [a]⟩ : Rule) ∈ (g.toChomsky f).1.ruleSet ↔
        [a] ∈ (g.toChomsky f).1.rhss X := Iff.rfl
    rw [mem, hr]
    simp [eq_comm]
  rw [listed, mem_ruleSet_toChomsky]
  refine (short_mem_splitRules (u := [a]) (Nat.le_refl 1)).trans ?_
  rw [mem_rules, rhss_separateTerminals, Distinct.mem_ofList, mem_rhssOf, mem_separatedRules]
  constructor
  · rintro (⟨s, hs, heq⟩ | ⟨p, hp, heq⟩)
    · -- A rule of the argument has an old left-hand side.
      have hlhs : s.lhs = X := (lhs_separate _ s).symm.trans (congrArg Rule.lhs heq)
      exact absurd (hlhs ▸ hg.lhs_mem_of_mem_rhss (mem_rules.1 hs)) hX.2
    · cases heq
      exact hp
  · exact fun hp => Or.inr ⟨_, hp, rfl⟩

theorem exists_rhss_eq_terminal_iff {a : Symbol} :
    (∃ X ∈ newSymbols g (g.toChomsky f).1, (g.toChomsky f).1.rhss X = [[a]]) ↔
      a.isTerminal = true ∧ ∃ A, ∃ r ∈ g.rhss A, 2 ≤ r.length ∧ a ∈ r := by
  have listed : (∃ X ∈ newSymbols g (g.toChomsky f).1, (g.toChomsky f).1.rhss X = [[a]]) ↔
      a ∈ g.longTerminals := by
    rw [← (allocatePreterminals_spec g.longTerminals f).1, List.mem_map]
    constructor
    · rintro ⟨X, hX, hXa⟩
      exact ⟨(a, X), (rhss_eq_terminal_iff hg hf hX).1 hXa, rfl⟩
    · rintro ⟨⟨b, X⟩, hp, rfl⟩
      have hX := (mem_newSymbols_toChomsky hg hf).2 (Or.inl (List.mem_map_of_mem hp))
      exact ⟨X, hX, (rhss_eq_terminal_iff hg hf hX).2 hp⟩
  rw [listed, mem_longTerminals]
  refine and_congr_right fun _ => ⟨?_, ?_⟩
  · rintro ⟨r, hr, hlong, ha⟩
    exact ⟨r.lhs, r.rhs, mem_rules.1 hr, of_decide_eq_true hlong, ha⟩
  · rintro ⟨A, r, hr, hlong, ha⟩
    exact ⟨⟨A, r⟩, mem_rules.2 hr, decide_eq_true hlong, ha⟩

/-- A link is mentioned once. -/
theorem count_rhs_linkNames (nodup : ∀ A, (g.rhss A).Nodup) {X : Symbol}
    (hX : X ∈ (g.linkNames f).map .nonterminal) :
    ((g.toChomsky f).1.rules.flatMap Rule.rhs).count X = 1 := by
  have rhs : X ∉ (g.separateTerminals f).1.rules.flatMap Rule.rhs := by
    intro hmem
    obtain ⟨r, hr, hmem⟩ := List.mem_flatMap.1 hmem
    exact not_mem_linkNames_of_mem_rules hg hf hr (Or.inr hmem) hX
  rw [((perm_rules_toChomsky hg hf nodup).flatMap_right Rule.rhs).count_eq,
    (perm_rhs_linkNames g f).count_eq, List.count_append, List.count_eq_zero.2 rhs,
    List.count_eq_one_of_mem (nodup_links g f) hX]

end

/-- The conversion of a valid grammar without repeated right-hand sides, by a supply that has its
    names in use.  Each new non-terminal has one right-hand side, and unfolding the new ones turns
    the right-hand sides of each old one into those that it had, in order.  The terminals of long
    right-hand sides have a proxy each and others have none; any other new non-terminal is
    mentioned once. -/
theorem toChomsky_unfolds (hg : g.Valid) (nodup : ∀ A, (g.rhss A).Nodup)
    (hf : ∀ x, g.Declares x → x.name ∈ f.used) :
    let h := (g.toChomsky f).1
    let new := newSymbols g h
    (∀ X ∈ new, ∃ r, h.rhss X = [r]) ∧
    (∀ A ∈ g.nonterminals, List.Forall₂ (UnfoldsTo new h.ruleSet) (h.rhss A) (g.rhss A)) ∧
    (∀ a, (∃ X ∈ new, h.rhss X = [[a]]) ↔
      a.isTerminal = true ∧ ∃ A, ∃ r ∈ g.rhss A, 2 ≤ r.length ∧ a ∈ r) ∧
    (∀ a, ∀ X ∈ new, ∀ Y ∈ new, h.rhss X = [[a]] → h.rhss Y = [[a]] → X = Y) ∧
    ∀ X ∈ new, (∀ a, a.isTerminal = true → h.rhss X ≠ [[a]]) →
      (h.rules.flatMap Rule.rhs).count X = 1 := by
  intro h new
  have wf := hg.wellFormed
  have outside := outside_allocatePreterminals (g := g) f
  refine ⟨fun X hX => exists_rhss_toChomsky wf hf hX, fun A hA => ?_,
    fun a => exists_rhss_eq_terminal_iff wf hf, ?_, ?_⟩
  · rw [rhss_toChomsky_eq_rhssOf wf hf nodup]
    exact forall₂_unfoldsTo_rhssOf wf hf hA (nodup A)
  · intro a X hX Y hY hXa hYa
    have first := (rhss_eq_terminal_iff wf hf hX).1 hXa
    have second := (rhss_eq_terminal_iff wf hf hY).1 hYa
    exact (Preterminals.apply_of_mem outside.nodup_fst first).symm.trans
      (Preterminals.apply_of_mem outside.nodup_fst second)
  · intro X hX other
    refine count_rhs_linkNames wf hf nodup ?_
    refine ((mem_newSymbols_toChomsky wf hf).1 hX).resolve_left fun hpre => ?_
    obtain ⟨p, hp, rfl⟩ := List.mem_map.1 hpre
    exact other p.1 (mem_longTerminals.1 (mem_longTerminals_of_mem hp)).1
      ((rhss_eq_terminal_iff wf hf hX).2 hp)

theorem nodup_rhss_crowded (A : Symbol) : (crowded.rhss A).Nodup := by
  unfold crowded
  apply nodup_rhss_addRules
  exact List.nodup_nil

theorem toChomsky_unfolds_crowded :
    let h := (crowded.toChomsky (.ofUsed crowded.declaredNames)).1
    let new := newSymbols crowded h
    (∀ X ∈ new, ∃ r, h.rhss X = [r]) ∧
    (∀ A ∈ crowded.nonterminals,
      List.Forall₂ (UnfoldsTo new h.ruleSet) (h.rhss A) (crowded.rhss A)) ∧
    (∀ a, (∃ X ∈ new, h.rhss X = [[a]]) ↔
      a.isTerminal = true ∧ ∃ A, ∃ r ∈ crowded.rhss A, 2 ≤ r.length ∧ a ∈ r) ∧
    (∀ a, ∀ X ∈ new, ∀ Y ∈ new, h.rhss X = [[a]] → h.rhss Y = [[a]] → X = Y) ∧
    ∀ X ∈ new, (∀ a, a.isTerminal = true → h.rhss X ≠ [[a]]) →
      (h.rules.flatMap Rule.rhs).count X = 1 :=
  toChomsky_unfolds valid_crowded nodup_rhss_crowded fun _ hx => name_mem_declaredNames hx

/-- `X2` is a link, the others are preterminals. -/
example : (crowded.toChomsky (.ofUsed crowded.declaredNames)).1.rhss (.nonterminal "S") =
    [[.nonterminal "T_a1", .nonterminal "X2"], [.nonterminal "T_a1", .nonterminal "T_b"],
      [.nonterminal "X1", .nonterminal "S"]] := by decide

end Grammar

end ContextFree
