/-
  ContextFree/Proofs/Conversion.lean
  ==================================
  **The conversion to Chomsky normal form** abbreviates.

  Chains are followed link by link and rule by rule, around rules `R` that stay as
  they are: while one rule is split, the others are in `R`.  The supply decides
  which symbols are new, so every statement speaks of the symbols that it knows.
  Preterminals are all introduced at once; `Preterminals.meaning` takes them back.

  Whether the empty right-hand sides are looked at makes no difference here
  (`exists_abbreviates_toChomsky` holds for any test that the others pass).
-/
import ContextFree.Chomsky
import ContextFree.Proofs.Abbreviation
import ContextFree.Proofs.FreshNames

namespace ContextFree

/-- The rules of a list. -/
def listedRules (rs : List Rule) : Set Rule := {r | r ∈ rs}

variable {K : Set Symbol} {R : Set Rule}

theorem listedRules_append (rs ss : List Rule) :
    listedRules (rs ++ ss) = listedRules rs ∪ listedRules ss := by
  ext r
  exact List.mem_append

theorem listedRules_cons (r : Rule) (rs : List Rule) :
    listedRules (r :: rs) = insert r (listedRules rs) := by
  ext s
  exact List.mem_cons

theorem listedRules_singleton (r : Rule) : listedRules [r] = {r} := by
  ext s
  exact List.mem_singleton

theorem MentionsOnly.mono {K' : Set Symbol} (h : MentionsOnly K R) (sub : K ⊆ K') :
    MentionsOnly K' R := fun r hr => ⟨sub (h r hr).1, fun x hx => sub ((h r hr).2 x hx)⟩

theorem mentionsOnly_insert {r : Rule} :
    MentionsOnly K (insert r R) ↔ (r.lhs ∈ K ∧ ∀ x ∈ r.rhs, x ∈ K) ∧ MentionsOnly K R := by
  constructor
  · intro h
    exact ⟨h r (Set.mem_insert r R), fun s hs => h s (Set.mem_insert_of_mem r hs)⟩
  · rintro ⟨hr, hR⟩ s (rfl | hs)
    · exact hr
    · exact hR s hs

theorem mentionsOnly_union {S : Set Rule} :
    MentionsOnly K (R ∪ S) ↔ MentionsOnly K R ∧ MentionsOnly K S := by
  constructor
  · exact fun h => ⟨fun r hr => h r (Or.inl hr), fun r hr => h r (Or.inr hr)⟩
  · rintro ⟨hR, hS⟩ r (hr | hr)
    · exact hR r hr
    · exact hS r hr

namespace Grammar

/-! ### Chains -/

/-- Splitting a rule knows its own links afterwards and forgets nothing. -/
theorem mentionsOnly_splitRule {A : Symbol} {r : Rhs} {f : NameSupply}
    (hA : A ∈ f.known) (hr : ∀ x ∈ r, x ∈ f.known) :
    f.known ⊆ (splitRule A r f).2.known ∧
      MentionsOnly (splitRule A r f).2.known (listedRules (splitRule A r f).1) := by
  fun_induction splitRule A r f with
  | case1 A s t u rest f name f' hnext chain f'' hchain ih =>
    have gives : f.Gives name f' := by
      have h := f.gives_next "X"
      rwa [hnext] at h
    obtain ⟨hs, hrest⟩ := List.forall_mem_cons.1 hr
    rw [hchain] at ih
    obtain ⟨sub, only⟩ := ih gives.nonterminal_mem fun x hx => gives.known_subset (hrest x hx)
    have keep := gives.known_subset.trans sub
    refine ⟨keep, ?_⟩
    rw [listedRules_cons, mentionsOnly_insert]
    exact ⟨⟨keep hA, List.forall_mem_cons.2
      ⟨keep hs, List.forall_mem_singleton.2 (sub gives.nonterminal_mem)⟩⟩, only⟩
  | case2 A r f _ =>
    refine ⟨subset_rfl, fun s hs => ?_⟩
    rw [List.mem_singleton.1 hs]
    exact ⟨hA, hr⟩

/-- Around other rules, a chain abbreviates the rule that it is made from. -/
theorem exists_abbreviates_splitRule {A : Symbol} {r : Rhs} {f : NameSupply} {R : Set Rule}
    (hR : MentionsOnly f.known (insert ⟨A, r⟩ R)) :
    ∃ φ, Abbreviates f.known (insert ⟨A, r⟩ R) (R ∪ listedRules (splitRule A r f).1) φ := by
  fun_induction splitRule A r f generalizing R with
  | case1 A s t u rest f name f' hnext chain f'' hchain ih =>
    have gives : f.Gives name f' := by
      have h := f.gives_next "X"
      rwa [hnext] at h
    have link := Abbreviates.link gives.nonterminal_not_mem hR
    obtain ⟨⟨hA, hrhs⟩, hother⟩ := mentionsOnly_insert.1 hR
    obtain ⟨hs, hrest⟩ := List.forall_mem_cons.1 hrhs
    have around : MentionsOnly f'.known
        (insert ⟨.nonterminal name, t :: u :: rest⟩ (insert ⟨A, [s, .nonterminal name]⟩ R)) := by
      rw [mentionsOnly_insert, mentionsOnly_insert]
      refine ⟨⟨gives.nonterminal_mem, fun x hx => gives.known_subset (hrest x hx)⟩,
        ⟨gives.known_subset hA, ?_⟩, hother.mono gives.known_subset⟩
      exact List.forall_mem_cons.2
        ⟨gives.known_subset hs, List.forall_mem_singleton.2 gives.nonterminal_mem⟩
    obtain ⟨φ, hφ⟩ := ih around
    rw [Set.insert_comm] at hφ
    have whole := link.trans hφ gives.known_subset
    rw [hchain, Set.insert_union, ← Set.union_insert, ← listedRules_cons] at whole
    exact ⟨_, whole⟩
  | case2 A r f _ =>
    rw [listedRules_singleton, Set.union_singleton]
    exact ⟨_, Abbreviates.refl _ _⟩

/-- Splitting all rules, around others. -/
theorem exists_abbreviates_splitRules {rs : List Rule} {f : NameSupply} {R : Set Rule}
    (hR : MentionsOnly f.known (R ∪ listedRules rs)) :
    ∃ φ, Abbreviates f.known (R ∪ listedRules rs) (R ∪ listedRules (splitRules rs f).1) φ := by
  induction rs generalizing f R with
  | nil => exact ⟨_, Abbreviates.refl _ _⟩
  | cons r rs ih =>
    rw [listedRules_cons, Set.union_insert] at hR ⊢
    obtain ⟨⟨hA, hr⟩, hother⟩ := mentionsOnly_insert.1 hR
    obtain ⟨hRK, hrs⟩ := mentionsOnly_union.1 hother
    obtain ⟨sub, only⟩ := mentionsOnly_splitRule hA hr
    -- First the chain of `r` around the other rules, then the other rules around the chain.
    obtain ⟨φ, hφ⟩ := exists_abbreviates_splitRule hR
    rw [Set.union_right_comm] at hφ
    obtain ⟨ψ, hψ⟩ := ih (f := (splitRule r.lhs r.rhs f).2)
      (R := R ∪ listedRules (splitRule r.lhs r.rhs f).1)
      (mentionsOnly_union.2 ⟨mentionsOnly_union.2 ⟨hRK.mono sub, only⟩, hrs.mono sub⟩)
    have whole := hφ.trans hψ sub
    rw [Set.union_assoc, ← listedRules_append] at whole
    exact ⟨_, whole⟩

end Grammar

/-! ### Preterminals -/

/-- What a symbol stands for: a preterminal for its terminal, any other symbol for itself. -/
def Preterminals.meaning (ps : Preterminals) (x : Symbol) : List Symbol :=
  [(Table.lookup x (ps.map Prod.swap)).getD x]

/-- Preterminals for different terminals, themselves different and outside `K`. -/
structure Preterminals.Outside (ps : Preterminals) (K : Set Symbol) : Prop where
  nodup_fst : (ps.map Prod.fst).Nodup
  nodup_snd : (ps.map Prod.snd).Nodup
  not_mem : ∀ p ∈ ps, p.2 ∉ K

/-- Allocation gives each terminal of a list a non-terminal that was not known and is known
    afterwards. -/
theorem allocatePreterminals_spec (as : List Symbol) (f : NameSupply) :
    (allocatePreterminals as f).1.map Prod.fst = as ∧
      ((allocatePreterminals as f).1.map Prod.snd).Nodup ∧
      (∀ p ∈ (allocatePreterminals as f).1, p.2.isNonterminal = true ∧ p.2 ∉ f.known ∧
        p.2 ∈ (allocatePreterminals as f).2.known) ∧
      f.known ⊆ (allocatePreterminals as f).2.known := by
  induction as generalizing f with
  | nil => exact ⟨rfl, List.nodup_nil, fun p hp => absurd hp List.not_mem_nil, subset_rfl⟩
  | cons a as ih =>
    have gives := f.gives_hinted "T" a.name
    obtain ⟨fst, nodup, spec, sub⟩ := ih (f.hinted "T" a.name).2
    refine ⟨congrArg (a :: ·) fst, ?_, ?_, gives.known_subset.trans sub⟩
    · -- A later preterminal was not known when the first one already was.
      refine List.nodup_cons.2 ⟨fun hmem => ?_, nodup⟩
      obtain ⟨p, hp, heq⟩ := List.mem_map.1 hmem
      exact (spec p hp).2.1 (heq ▸ gives.nonterminal_mem)
    · refine List.forall_mem_cons.2 ⟨?_, fun p hp => ?_⟩
      · exact ⟨rfl, gives.nonterminal_not_mem, sub gives.nonterminal_mem⟩
      · obtain ⟨hnt, hnot, hin⟩ := spec p hp
        exact ⟨hnt, fun hk => hnot (gives.known_subset hk), hin⟩

namespace Preterminals

variable {ps : Preterminals}

theorem apply_of_mem (h : (ps.map Prod.fst).Nodup) {a T : Symbol} (hp : (a, T) ∈ ps) :
    ps.apply a = T := by
  unfold apply
  rw [(Table.lookup_eq_some_iff h).2 hp]
  rfl

theorem apply_of_not_mem {a : Symbol} (h : a ∉ ps.map Prod.fst) : ps.apply a = a := by
  unfold apply
  rw [Table.lookup_eq_none_iff.2 h]
  rfl

theorem meaning_of_mem (h : (ps.map Prod.snd).Nodup) {a T : Symbol} (hp : (a, T) ∈ ps) :
    ps.meaning T = [a] := by
  have swapped : ((ps.map Prod.swap).map Prod.fst).Nodup := by
    rwa [List.map_map]
  unfold meaning
  rw [(Table.lookup_eq_some_iff swapped).2 (List.mem_map.2 ⟨(a, T), hp, rfl⟩)]
  rfl

theorem meaning_of_not_mem {x : Symbol} (h : x ∉ ps.map Prod.snd) : ps.meaning x = [x] := by
  have swapped : x ∉ (ps.map Prod.swap).map Prod.fst := by
    rwa [List.map_map]
  unfold meaning
  rw [Table.lookup_eq_none_iff.2 swapped]
  rfl

variable {K : Set Symbol}

theorem Outside.meaning_of_known (h : ps.Outside K) {x : Symbol} (hx : x ∈ K) :
    ps.meaning x = [x] := by
  apply meaning_of_not_mem
  intro hmem
  obtain ⟨p, hp, rfl⟩ := List.mem_map.1 hmem
  exact h.not_mem p hp hx

/-- The meaning of what replaces a known symbol is the symbol. -/
theorem Outside.meaning_apply (h : ps.Outside K) {x : Symbol} (hx : x ∈ K) :
    ps.meaning (ps.apply x) = [x] := by
  by_cases hmem : x ∈ ps.map Prod.fst
  · obtain ⟨⟨a, T⟩, hp, rfl⟩ := List.mem_map.1 hmem
    rw [apply_of_mem h.nodup_fst hp, meaning_of_mem h.nodup_snd hp]
  · rw [apply_of_not_mem hmem, h.meaning_of_known hx]

end Preterminals

/-- The rules with preterminals in long right-hand sides, and those of the preterminals. -/
def separatedRules (ps : Preterminals) (rs : List Rule) : List Rule :=
  rs.map (Rule.separate ps) ++ ps.map fun p => ⟨p.2, [p.1]⟩

theorem lhs_separate (ps : Preterminals) (r : Rule) : (Rule.separate ps r).lhs = r.lhs := by
  unfold Rule.separate
  split <;> rfl

theorem rhs_separate (ps : Preterminals) (r : Rule) :
    (Rule.separate ps r).rhs = if Rhs.isLong r.rhs then r.rhs.map ps.apply else r.rhs := by
  unfold Rule.separate
  split <;> rfl

/-- A separated right-hand side mentions what it did and preterminals. -/
theorem mem_rhs_separate {ps : Preterminals} (hps : (ps.map Prod.fst).Nodup) {r : Rule} {x : Symbol}
    (hx : x ∈ (Rule.separate ps r).rhs) : x ∈ r.rhs ∨ x ∈ ps.map Prod.snd := by
  rw [rhs_separate] at hx
  split at hx
  · obtain ⟨y, hy, rfl⟩ := List.mem_map.1 hx
    by_cases hmem : y ∈ ps.map Prod.fst
    · obtain ⟨p, hp, rfl⟩ := List.mem_map.1 hmem
      rw [ps.apply_of_mem hps hp]
      exact Or.inr (List.mem_map_of_mem hp)
    · rw [Preterminals.apply_of_not_mem hmem]
      exact Or.inl hy
  · exact Or.inl hx

theorem flatMap_meaning_rhs_separate {K : Set Symbol} {ps : Preterminals} (hps : ps.Outside K)
    {r : Rule} (hr : ∀ x ∈ r.rhs, x ∈ K) :
    (Rule.separate ps r).rhs.flatMap ps.meaning = r.rhs := by
  rw [rhs_separate]
  split
  · rw [List.flatMap_map]
    exact flatMap_eq_self (K := K) (fun x hx => hps.meaning_apply hx) hr
  · exact flatMap_eq_self (K := K) (fun x hx => hps.meaning_of_known hx) hr

theorem mem_separatedRules {ps : Preterminals} {rs : List Rule} {s : Rule} :
    s ∈ separatedRules ps rs ↔
      (∃ r ∈ rs, Rule.separate ps r = s) ∨ ∃ p ∈ ps, s = ⟨p.2, [p.1]⟩ := by
  simp only [separatedRules, List.mem_append, List.mem_map, eq_comm]

/-- Preterminals abbreviate their terminals, if each of them is in use. -/
theorem abbreviates_separatedRules {K : Set Symbol} {ps : Preterminals} {rs : List Rule}
    (hK : MentionsOnly K (listedRules rs)) (hps : ps.Outside K)
    (inUse : ∀ p ∈ ps, p.1 ∈ K ∧ ∃ r ∈ rs, Rhs.isLong r.rhs = true ∧ p.1 ∈ r.rhs) :
    Abbreviates K (listedRules rs) (listedRules (separatedRules ps rs)) ps.meaning := by
  have separated : ∀ r ∈ rs, Rule.separate ps r ∈ listedRules (separatedRules ps rs) :=
    fun r hr => mem_separatedRules.2 (Or.inl ⟨r, hr, rfl⟩)
  have unfolds : ∀ x, Expands (listedRules (separatedRules ps rs)) [x] (ps.meaning x) := by
    intro x
    by_cases hx : x ∈ ps.map Prod.snd
    · obtain ⟨⟨a, T⟩, hp, rfl⟩ := List.mem_map.1 hx
      rw [ps.meaning_of_mem hps.nodup_snd hp]
      exact Expands.single (mem_separatedRules.2 (Or.inr ⟨(a, T), hp, rfl⟩))
    · rw [Preterminals.meaning_of_not_mem hx]
      exact Expands.refl _ [x]
  refine ⟨fun x hx => hps.meaning_of_known hx, ?_, ?_, unfolds, ?_, ?_⟩
  · intro A r hr
    rcases mem_separatedRules.1 hr with ⟨s, hs, heq⟩ | ⟨⟨a, T⟩, hp, heq⟩
    · have hA : A = s.lhs := (congrArg Rule.lhs heq).symm.trans (lhs_separate ps s)
      have hrhs : r = (Rule.separate ps s).rhs := (congrArg Rule.rhs heq).symm
      rw [hA, hrhs, hps.meaning_of_known (hK s hs).1,
        flatMap_meaning_rhs_separate hps (hK s hs).2]
      exact Expands.single hs
    · cases heq
      rw [ps.meaning_of_mem hps.nodup_snd hp, List.flatMap_singleton,
        hps.meaning_of_known (inUse _ hp).1]
      exact Expands.refl _ [a]
  · intro A r hr
    have first := Expands.ofMem (separated ⟨A, r⟩ hr)
    have back := expands_flatMap (u := (Rule.separate ps ⟨A, r⟩).rhs) fun x _ => unfolds x
    rw [flatMap_meaning_rhs_separate hps (hK _ hr).2] at back
    rw [lhs_separate] at first
    exact first.trans back
  · intro s hs
    rcases mem_separatedRules.1 hs with ⟨r, hr, rfl⟩ | ⟨⟨a, T⟩, hp, rfl⟩
    · exact ⟨r, hr, [], [], lhs_separate ps r ▸ Expands.refl _ _⟩
    · -- A preterminal occurs where its terminal was.
      obtain ⟨_, r, hr, hlong, ha⟩ := inUse _ hp
      have hT : T ∈ (Rule.separate ps r).rhs := by
        rw [rhs_separate, if_pos hlong]
        exact List.mem_map.2 ⟨a, ha, ps.apply_of_mem hps.nodup_fst hp⟩
      obtain ⟨u, v, huv⟩ := List.append_of_mem hT
      have first := Expands.ofMem (separated r hr)
      rw [huv, lhs_separate] at first
      exact ⟨r, hr, u, v, first⟩
  · exact fun r hr => ⟨_, separated r hr, lhs_separate ps r⟩

end ContextFree
