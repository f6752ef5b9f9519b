/-
  ContextFree/Proofs/Renaming.lean
  ================================
  **The conversion up to the names of its new symbols.**

  A new non-terminal is there for something: it is the preterminal of a terminal, or
  the link at a place of the chain for a rule (`Role`).  Which roles are needed
  depends on the set of rules only; which name a role gets depends on the order in
  which the rules come and on the supply.  `WellFormed.exists_names` takes the two
  apart: the rules of the result are `convertedRules ν` of the given ones for a naming
  `ν` that gives each role a name of its own, outside the known symbols.

  So two conversions of the same rules differ by a renaming, which takes the name of
  each role in the one to its name in the other (`Names.exists_renaming`).
-/
import ContextFree.Proofs.Reversal
import Mathlib.Data.List.Pairwise

namespace ContextFree

open NameSupply

/-- What a new non-terminal is there for. -/
inductive Role where
  | preterminal (a : Symbol)
  /-- The link behind place `i` of the chain for a rule, counted from zero. -/
  | link (r : Rule) (i : Nat)

/-- A terminal of a long right-hand side needs a preterminal, and a rule of more than two symbols a
    link behind each place but the last two. -/
def Role.NeededBy (R : Set Rule) : Role → Prop
  | preterminal a => a.isTerminal = true ∧ ∃ r ∈ R, Rhs.isLong r.rhs = true ∧ a ∈ r.rhs
  | link r i => r ∈ R ∧ i + 2 < r.rhs.length

/-- Names outside `K` for the roles that the rules need, a different one for each. -/
structure Names (K : Set Symbol) (R : Set Rule) (ν : Role → Symbol) : Prop where
  injOn : Set.InjOn ν {role | role.NeededBy R}
  not_mem : ∀ role, role.NeededBy R → ν role ∉ K

/-! ### Chains with given links -/

/-- The chain for a rule, with its links in order. -/
def chainOf (link : Nat → Symbol) : Symbol → Rhs → List Rule
  | A, s :: t :: u :: rest =>
    ⟨A, [s, link 0]⟩ :: chainOf (fun i => link (i + 1)) (link 0) (t :: u :: rest)
  | A, r => [⟨A, r⟩]

theorem chainOf_of_length_le {link : Nat → Symbol} {A : Symbol} {r : Rhs} (h : r.length ≤ 2) :
    chainOf link A r = [⟨A, r⟩] := by
  rcases r with _ | ⟨s, _ | ⟨t, _ | ⟨u, rest⟩⟩⟩
  · rfl
  · rfl
  · rfl
  · simp at h

theorem chainOf_congr {link link' : Nat → Symbol} {A : Symbol} {r : Rhs}
    (h : ∀ i, i + 2 < r.length → link i = link' i) : chainOf link A r = chainOf link' A r := by
  fun_induction chainOf link A r generalizing link' with
  | case1 link A s t u rest ih =>
    have first : link 0 = link' 0 := h 0 (by simp)
    have later : chainOf (fun i => link (i + 1)) (link 0) (t :: u :: rest) =
        chainOf (fun i => link' (i + 1)) (link 0) (t :: u :: rest) :=
      ih fun i hi => h (i + 1) (by simpa using hi)
    rw [chainOf, later, first]
  | case2 link A r short => rw [chainOf_of_length_le (Grammar.length_le_two short)]

theorem length_run (cs : List Call) (f : NameSupply) : (run cs f).1.length = cs.length := by
  induction cs generalizing f with
  | nil => rfl
  | cons c cs ih => simp [run, ih]

theorem splitRule_eq_chainOf (A : Symbol) (r : Rhs) (f : NameSupply) :
    (Grammar.splitRule A r f).1 =
      chainOf (fun i => .nonterminal ((run (chainCalls r) f).1.getD i "")) A r := by
  fun_induction Grammar.splitRule A r f with
  | case1 A s t u rest f name f' hnext chain f'' hchain ih =>
    rw [hchain] at ih
    rw [chainCalls_cons, chainOf]
    simp only [run, Call.answer, hnext, List.getD_cons_zero, List.getD_cons_succ]
    rw [← ih]
  | case2 A r f short => rw [chainOf_of_length_le (Grammar.length_le_two short)]

/-! ### The links of many rules -/

/-- The links for some rules: each place of a chain has a name of its own, and there are no more
    names than places. -/
structure LinkNames (rs : List Rule) (names : List String) (link : Rule → Nat → Symbol) : Prop where
  mem_iff : ∀ x, x ∈ names.map Symbol.nonterminal ↔
    ∃ r ∈ rs, ∃ i, i + 2 < r.rhs.length ∧ link r i = x
  inj : ∀ r ∈ rs, ∀ s ∈ rs, ∀ i j, i + 2 < r.rhs.length → j + 2 < s.rhs.length →
    link r i = link s j → r = s ∧ i = j

theorem map_range_getD (names : List String) :
    (List.range names.length).map (fun i => Symbol.nonterminal (names.getD i "")) =
      names.map .nonterminal := by
  refine List.ext_getElem (by simp) fun i hi _ => ?_
  simp at hi
  simp [hi]

/-- The links are the names handed out, chain by chain. -/
theorem exists_links {rs : List Rule} (nodup : rs.Nodup) (f : NameSupply) :
    ∃ link : Rule → Nat → Symbol,
      (Grammar.splitRules rs f).1 = (rs.flatMap fun r => chainOf (link r) r.lhs r.rhs) ∧
      (rs.flatMap fun r => (List.range (r.rhs.length - 2)).map (link r)) =
        (run (rs.flatMap fun r => chainCalls r.rhs) f).1.map .nonterminal := by
  induction rs generalizing f with
  | nil => exact ⟨fun _ _ => .nonterminal "", rfl, rfl⟩
  | cons r rs ih =>
    obtain ⟨hr, nodup⟩ := List.nodup_cons.1 nodup
    obtain ⟨later, chains, names⟩ := ih nodup (run (chainCalls r.rhs) f).2
    have step : (Grammar.splitRules (r :: rs) f).1 = (Grammar.splitRule r.lhs r.rhs f).1 ++
        (Grammar.splitRules rs (Grammar.splitRule r.lhs r.rhs f).2).1 := rfl
    have length : (run (chainCalls r.rhs) f).1.length = r.rhs.length - 2 := by
      rw [length_run, chainCalls, List.length_replicate]
    -- The first rule takes its own names, the others keep theirs.
    obtain ⟨link, own, others⟩ : ∃ link : Rule → Nat → Symbol,
        (link r = fun i => .nonterminal ((run (chainCalls r.rhs) f).1.getD i "")) ∧
          ∀ s ∈ rs, link s = later s := by
      refine ⟨Function.update later r _, Function.update_self .., fun s hs => ?_⟩
      exact Function.update_of_ne (ne_of_mem_of_not_mem hs hr) ..
    refine ⟨link, ?_, ?_⟩
    · rw [step, splitRule_eq_chainOf, Grammar.snd_splitRule, chains, List.flatMap_cons, own]
      exact congrArg _ (List.flatMap_congr fun s hs => by rw [others s hs])
    · rw [List.flatMap_cons, List.flatMap_cons, run_append, List.map_append, ← names, own,
        ← length, map_range_getD]
      exact congrArg _ (List.flatMap_congr fun s hs => by rw [others s hs])

/-- Splitting different rules links different places by different names. -/
theorem exists_linkNames {rs : List Rule} (nodup : rs.Nodup) (f : NameSupply) :
    ∃ link : Rule → Nat → Symbol,
      (Grammar.splitRules rs f).1 = (rs.flatMap fun r => chainOf (link r) r.lhs r.rhs) ∧
      LinkNames rs (run (rs.flatMap fun r => chainCalls r.rhs) f).1 link := by
  obtain ⟨link, chains, names⟩ := exists_links nodup f
  have distinct : (rs.flatMap fun r => (List.range (r.rhs.length - 2)).map (link r)).Nodup := by
    rw [names]
    exact (nodup_run _ _).map fun _ _ h => Symbol.nonterminal.inj h
  obtain ⟨each, apart⟩ := List.nodup_flatMap.1 distinct
  have symm : Std.Symm (Function.onFun List.Disjoint fun r : Rule =>
      (List.range (r.rhs.length - 2)).map (link r)) := ⟨fun _ _ h x hx hy => h hy hx⟩
  have place : ∀ {r : Rule} {i}, i + 2 < r.rhs.length →
      link r i ∈ (List.range (r.rhs.length - 2)).map (link r) :=
    fun hi => List.mem_map_of_mem (List.mem_range.2 (by omega))
  refine ⟨link, chains, fun x => ?_, fun r hr s hs i j hi hj heq => ?_⟩
  · rw [← names]
    simp only [List.mem_flatMap, List.mem_map, List.mem_range, Nat.lt_sub_iff_add_lt]
  · by_cases hrs : r = s
    · subst hrs
      exact ⟨rfl, List.inj_on_of_nodup_map (each r hr) (List.mem_range.2 (by omega))
        (List.mem_range.2 (by omega)) heq⟩
    · exact absurd (heq ▸ place hj) (apart.forall hr hs hrs (place hi))

/-! ### The conversion by names -/

/-- Replaces the terminals of a long right-hand side by the names of their preterminals. -/
def Rhs.separate (ν : Role → Symbol) (r : Rhs) : Rhs :=
  if Rhs.isLong r then r.map fun x => if x.isTerminal then ν (.preterminal x) else x else r

theorem Rhs.length_separate (ν : Role → Symbol) (r : Rhs) : (r.separate ν).length = r.length := by
  unfold Rhs.separate
  split <;> simp

/-- The rules of the conversion, with names for the new symbols. -/
def convertedRules (ν : Role → Symbol) (R : Set Rule) : Set Rule :=
  {s | (∃ r ∈ R, s ∈ chainOf (fun i => ν (.link r i)) r.lhs (r.rhs.separate ν)) ∨
    ∃ a, (Role.preterminal a).NeededBy R ∧ s = ⟨ν (.preterminal a), [a]⟩}

/-- The names that the conversion gives: preterminals from their table, and the links of the rule
    that has preterminals in it. -/
def roleName (ps : Preterminals) (link : Rule → Nat → Symbol) : Role → Symbol
  | .preterminal a => ps.apply a
  | .link r i => link (Rule.separate ps r) i

theorem length_rhs_separate (ps : Preterminals) (r : Rule) :
    (Rule.separate ps r).rhs.length = r.rhs.length := by
  rw [rhs_separate]
  split <;> simp

namespace Grammar

variable {g : Grammar} {f : NameSupply}

theorem nodup_rules_separateTerminals (g : Grammar) (f : NameSupply) :
    (g.separateTerminals f).1.rules.Nodup := by
  refine nodup_of_nodup_rhssOf fun A => ?_
  rw [rhssOf_rules, separateTerminals_eq_addRules]
  apply nodup_rhss_addRules
  exact List.nodup_nil

theorem mem_longTerminals_iff_neededBy {a : Symbol} :
    a ∈ g.longTerminals ↔ (Role.preterminal a).NeededBy g.ruleSet := by
  refine mem_longTerminals.trans (and_congr_right fun _ => ?_)
  simp only [mem_rules]
  rfl

theorem mem_allocatePreterminals_of_neededBy (f : NameSupply) {a : Symbol}
    (need : (Role.preterminal a).NeededBy g.ruleSet) :
    (a, (allocatePreterminals g.longTerminals f).1.apply a) ∈
      (allocatePreterminals g.longTerminals f).1 := by
  have fst := (allocatePreterminals_spec g.longTerminals f).1
  have nodup := (outside_allocatePreterminals (g := g) f).nodup_fst
  rw [← mem_longTerminals_iff_neededBy, ← fst] at need
  obtain ⟨⟨b, T⟩, hp, rfl⟩ := List.mem_map.1 need
  rwa [Preterminals.apply_of_mem nodup hp]

/-- The table of preterminals only replaces terminals of long right-hand sides. -/
theorem rhs_separate_eq (link : Rule → Nat → Symbol) (r : Rule) :
    (Rule.separate (allocatePreterminals g.longTerminals f).1 r).rhs =
      r.rhs.separate (roleName (allocatePreterminals g.longTerminals f).1 link) := by
  have fst := (allocatePreterminals_spec g.longTerminals f).1
  rw [rhs_separate, Rhs.separate]
  split
  · refine List.map_congr_left fun x _ => ?_
    split
    · rfl
    · rename_i hnt
      refine Preterminals.apply_of_not_mem fun hmem => hnt ?_
      rw [fst] at hmem
      exact (mem_longTerminals.1 hmem).1
  · rfl

theorem mem_rules_separateTerminals {s : Rule} : s ∈ (g.separateTerminals f).1.rules ↔
    (∃ r ∈ g.ruleSet, Rule.separate (allocatePreterminals g.longTerminals f).1 r = s) ∨
      ∃ p ∈ (allocatePreterminals g.longTerminals f).1, s = ⟨p.2, [p.1]⟩ := by
  have listed : s ∈ (g.separateTerminals f).1.rules ↔ s ∈ (g.separateTerminals f).1.ruleSet :=
    mem_rules
  rw [listed, ruleSet_separateTerminals]
  refine mem_separatedRules.trans (or_congr_left ?_)
  simp only [mem_rules]
  rfl

theorem ruleSet_toChomsky_eq_convertedRules {link : Rule → Nat → Symbol}
    (chains : g.chomskyRules f =
      (g.separateTerminals f).1.rules.flatMap fun r => chainOf (link r) r.lhs r.rhs) :
    (g.toChomsky f).1.ruleSet =
      convertedRules (roleName (allocatePreterminals g.longTerminals f).1 link) g.ruleSet := by
  have outside := outside_allocatePreterminals (g := g) f
  ext s
  rw [mem_ruleSet_toChomsky, chains, List.mem_flatMap]
  constructor
  · rintro ⟨t, ht, hs⟩
    rcases mem_rules_separateTerminals.1 ht with ⟨r, hr, rfl⟩ | ⟨⟨a, T⟩, hp, rfl⟩
    · refine Or.inl ⟨r, hr, ?_⟩
      rwa [lhs_separate, rhs_separate_eq link] at hs
    · rw [chainOf_of_length_le (by simp)] at hs
      refine Or.inr ⟨a, mem_longTerminals_iff_neededBy.1 (mem_longTerminals_of_mem hp), ?_⟩
      rw [List.mem_singleton.1 hs, roleName, Preterminals.apply_of_mem outside.nodup_fst hp]
  · rintro (⟨r, hr, hs⟩ | ⟨a, need, rfl⟩)
    · refine ⟨_, mem_rules_separateTerminals.2 (Or.inl ⟨r, hr, rfl⟩), ?_⟩
      rwa [lhs_separate, rhs_separate_eq link]
    · have hp := mem_allocatePreterminals_of_neededBy f need
      refine ⟨_, mem_rules_separateTerminals.2 (Or.inr ⟨_, hp, rfl⟩), ?_⟩
      rw [chainOf_of_length_le (by simp)]
      exact List.mem_singleton_self _

section

variable {link : Rule → Nat → Symbol}
  (links : LinkNames (g.separateTerminals f).1.rules (g.linkNames f) link)
include links

theorem roleName_link_mem {r : Rule} {i : Nat} (need : (Role.link r i).NeededBy g.ruleSet) :
    roleName (allocatePreterminals g.longTerminals f).1 link (.link r i) ∈
      (g.linkNames f).map .nonterminal := by
  obtain ⟨hr, hi⟩ := need
  refine (links.mem_iff _).2 ⟨_, mem_rules_separateTerminals.2 (Or.inl ⟨r, hr, rfl⟩), i, ?_, rfl⟩
  rwa [length_rhs_separate]

/-- A link is not known when the preterminals are. -/
theorem roleName_preterminal_ne_link {a : Symbol} {r : Rule} {i : Nat}
    (need : (Role.preterminal a).NeededBy g.ruleSet)
    (need' : (Role.link r i).NeededBy g.ruleSet) :
    roleName (allocatePreterminals g.longTerminals f).1 link (.preterminal a) ≠
      roleName (allocatePreterminals g.longTerminals f).1 link (.link r i) := by
  intro heq
  have spec := (allocatePreterminals_spec g.longTerminals f).2.2.1
  have hp := mem_allocatePreterminals_of_neededBy f need
  obtain ⟨name, hname, hX⟩ := List.mem_map.1 (roleName_link_mem links need')
  rw [← heq] at hX
  exact not_mem_known_of_mem_linkNames hname (hX ▸ (spec _ hp).2.2)

variable (hg : g.WellFormed) (hf : ∀ x, g.Declares x → x.name ∈ f.used)
include hg hf

omit links in
/-- Different rules stay different with preterminals. -/
theorem injOn_separate : Set.InjOn (Rule.separate (allocatePreterminals g.longTerminals f).1)
    g.ruleSet := by
  have outside := outside_allocatePreterminals (g := g) f
  have known := mentionsOnly_ruleSet hg hf
  intro r hr s hs heq
  have lhs := congrArg Rule.lhs heq
  have rhs := congrArg (fun t : Rule => t.rhs.flatMap
    (allocatePreterminals g.longTerminals f).1.meaning) heq
  simp only [lhs_separate] at lhs
  simp only [flatMap_meaning_rhs_separate outside (known r hr).2,
    flatMap_meaning_rhs_separate outside (known s hs).2] at rhs
  obtain ⟨A, r⟩ := r
  obtain ⟨B, s⟩ := s
  cases lhs
  cases rhs
  rfl

theorem names_roleName :
    Names f.known g.ruleSet (roleName (allocatePreterminals g.longTerminals f).1 link) := by
  have outside := outside_allocatePreterminals (g := g) f
  constructor
  · rintro (a | ⟨r, i⟩) need (b | ⟨s, j⟩) need' heq
    · -- A preterminal stands for one terminal.
      have same : (allocatePreterminals g.longTerminals f).1.apply a =
        (allocatePreterminals g.longTerminals f).1.apply b := heq
      have first := Preterminals.meaning_of_mem outside.nodup_snd
        (mem_allocatePreterminals_of_neededBy f need)
      have second := Preterminals.meaning_of_mem outside.nodup_snd
        (mem_allocatePreterminals_of_neededBy f need')
      rw [same, second] at first
      rw [(List.cons.inj first).1]
    · exact absurd heq (roleName_preterminal_ne_link links need need')
    · exact absurd heq.symm (roleName_preterminal_ne_link links need' need)
    · have mem : ∀ {r i}, (Role.link r i).NeededBy g.ruleSet →
          Rule.separate (allocatePreterminals g.longTerminals f).1 r ∈
              (g.separateTerminals f).1.rules ∧
            i + 2 < (Rule.separate (allocatePreterminals g.longTerminals f).1 r).rhs.length := by
        rintro r i ⟨hr, hi⟩
        rw [length_rhs_separate]
        exact ⟨mem_rules_separateTerminals.2 (Or.inl ⟨r, hr, rfl⟩), hi⟩
      obtain ⟨hr, hi⟩ := mem need
      obtain ⟨hs, hj⟩ := mem need'
      obtain ⟨hrs, rfl⟩ := links.inj _ hr _ hs i j hi hj heq
      rw [injOn_separate hg hf need.1 need'.1 hrs]
  · rintro (a | ⟨r, i⟩) need hknown
    · exact outside.not_mem _ (mem_allocatePreterminals_of_neededBy f need) hknown
    · obtain ⟨name, hname, hX⟩ := List.mem_map.1 (roleName_link_mem links need)
      rw [← hX] at hknown
      exact not_mem_known_of_mem_linkNames hname (known_subset_separateTerminals g f hknown)

theorem mem_nonterminals_toChomsky_iff {x : Symbol} : x ∈ (g.toChomsky f).1.nonterminals ↔
    x ∈ g.nonterminals ∨ ∃ role, role.NeededBy g.ruleSet ∧
      roleName (allocatePreterminals g.longTerminals f).1 link role = x := by
  have outside := outside_allocatePreterminals (g := g) f
  refine (hg.mem_nonterminals_toChomsky fun a ha => hf a (Or.inr ha)).trans (or_congr_right ?_)
  rw [links.mem_iff]
  constructor
  · rintro (hx | ⟨s, hs, i, hi, rfl⟩)
    · obtain ⟨⟨a, T⟩, hp, rfl⟩ := List.mem_map.1 hx
      refine ⟨.preterminal a, ?_, Preterminals.apply_of_mem outside.nodup_fst hp⟩
      exact mem_longTerminals_iff_neededBy.1 (mem_longTerminals_of_mem hp)
    · rcases mem_rules_separateTerminals.1 hs with ⟨r, hr, rfl⟩ | ⟨p, _, rfl⟩
      · rw [length_rhs_separate] at hi
        exact ⟨.link r i, ⟨hr, hi⟩, rfl⟩
      · simp at hi
  · rintro ⟨a | ⟨r, i⟩, need, rfl⟩
    · have hp := mem_allocatePreterminals_of_neededBy f need
      exact Or.inl (List.mem_map_of_mem (f := Prod.snd) hp)
    · exact Or.inr ((links.mem_iff _).1 (roleName_link_mem links need))

end

/-- The conversion gives a name to each role that the rules need, and declares no other name. -/
theorem WellFormed.exists_names (hg : g.WellFormed) (hf : ∀ x, g.Declares x → x.name ∈ f.used) :
    ∃ ν, Names f.known g.ruleSet ν ∧
      (g.toChomsky f).1.ruleSet = convertedRules ν g.ruleSet ∧
      ∀ x, x ∈ (g.toChomsky f).1.nonterminals ↔
        x ∈ g.nonterminals ∨ ∃ role, role.NeededBy g.ruleSet ∧ ν role = x := by
  obtain ⟨link, chains, links⟩ :=
    exists_linkNames (nodup_rules_separateTerminals g f) (g.separateTerminals f).2
  exact ⟨_, names_roleName links hg hf, ruleSet_toChomsky_eq_convertedRules chains,
    fun x => mem_nonterminals_toChomsky_iff links hg hf⟩

end Grammar

/-! ### Renaming -/

def Rule.rename (φ : Symbol → Symbol) (r : Rule) : Rule := ⟨φ r.lhs, r.rhs.map φ⟩

theorem map_rename_chainOf (φ : Symbol → Symbol) (link : Nat → Symbol) (A : Symbol) (r : Rhs) :
    (chainOf link A r).map (Rule.rename φ) = chainOf (fun i => φ (link i)) (φ A) (r.map φ) := by
  fun_induction chainOf link A r with
  | case1 link A s t u rest ih =>
    rw [List.map_cons, ih]
    rfl
  | case2 link A r short =>
    have short : (r.map φ).length ≤ 2 := by
      rw [List.length_map]
      exact Grammar.length_le_two short
    rw [chainOf_of_length_le short]
    rfl

/-- A renaming of the symbols that `ν` names to those that `ν'` names for the same roles. -/
structure Renames (K : Set Symbol) (R : Set Rule) (ν ν' : Role → Symbol) (φ : Symbol → Symbol) :
    Prop where
  fixes : ∀ x ∈ K, φ x = x
  moves : ∀ role, role.NeededBy R → φ (ν role) = ν' role

variable {K N : Set Symbol} {R : Set Rule} {ν ν' : Role → Symbol} {φ : Symbol → Symbol}

theorem Names.exists_renaming (names : Names K R ν) (ν' : Role → Symbol) :
    ∃ φ, Renames K R ν ν' φ := by
  classical
  refine ⟨fun x => if h : ∃ role, role.NeededBy R ∧ ν role = x then ν' h.choose else x, ?_, ?_⟩
  · intro x hx
    refine dif_neg ?_
    rintro ⟨role, need, rfl⟩
    exact names.not_mem role need hx
  · intro role need
    have named : ∃ r : Role, r.NeededBy R ∧ ν r = ν role := ⟨role, need, rfl⟩
    refine (dif_pos named).trans ?_
    rw [names.injOn named.choose_spec.1 need named.choose_spec.2]

namespace Renames

/-- Known symbols and names of the one side go to the same known symbols and the names of the
    other, each to a different one. -/
theorem bijOn (renames : Renames K R ν ν' φ) (names' : Names K R ν') (sub : N ⊆ K) :
    Set.BijOn φ {x | x ∈ N ∨ ∃ role, role.NeededBy R ∧ ν role = x}
      {x | x ∈ N ∨ ∃ role, role.NeededBy R ∧ ν' role = x} := by
  refine ⟨?_, ?_, ?_⟩
  · rintro x (hx | ⟨role, need, rfl⟩)
    · exact Or.inl ((renames.fixes x (sub hx)).symm ▸ hx)
    · exact Or.inr ⟨role, need, (renames.moves role need).symm⟩
  · rintro x (hx | ⟨role, need, rfl⟩) y (hy | ⟨role', need', rfl⟩) heq
    · rwa [renames.fixes x (sub hx), renames.fixes y (sub hy)] at heq
    · rw [renames.fixes x (sub hx), renames.moves role' need'] at heq
      exact absurd (heq ▸ sub hx) (names'.not_mem role' need')
    · rw [renames.moves role need, renames.fixes y (sub hy)] at heq
      exact absurd (heq ▸ sub hy) (names'.not_mem role need)
    · rw [renames.moves role need, renames.moves role' need'] at heq
      rw [names'.injOn need need' heq]
  · rintro y (hy | ⟨role, need, rfl⟩)
    · exact ⟨y, Or.inl hy, renames.fixes y (sub hy)⟩
    · exact ⟨ν role, Or.inr ⟨role, need, rfl⟩, renames.moves role need⟩

theorem map_separate (renames : Renames K R ν ν' φ) {r : Rule} (hr : r ∈ R)
    (known : ∀ x ∈ r.rhs, x ∈ K) : (r.rhs.separate ν).map φ = r.rhs.separate ν' := by
  unfold Rhs.separate
  split
  · rename_i hlong
    rw [List.map_map]
    refine List.map_congr_left fun x hx => ?_
    by_cases hterm : x.isTerminal = true
    · simp only [Function.comp_apply, if_pos hterm]
      exact renames.moves _ ⟨hterm, r, hr, hlong, hx⟩
    · simp only [Function.comp_apply, if_neg hterm]
      exact renames.fixes x (known x hx)
  · exact (List.map_congr_left fun x hx => renames.fixes x (known x hx)).trans (List.map_id _)

theorem map_chainOf (renames : Renames K R ν ν' φ) (hK : MentionsOnly K R) {r : Rule}
    (hr : r ∈ R) :
    (chainOf (fun i => ν (.link r i)) r.lhs (r.rhs.separate ν)).map (Rule.rename φ) =
      chainOf (fun i => ν' (.link r i)) r.lhs (r.rhs.separate ν') := by
  obtain ⟨hlhs, hrhs⟩ := hK r hr
  rw [map_rename_chainOf, renames.fixes _ hlhs, renames.map_separate hr hrhs]
  refine chainOf_congr fun i hi => renames.moves _ ⟨hr, ?_⟩
  rwa [Rhs.length_separate] at hi

/-- The rules of the one naming go to those of the other. -/
theorem image_convertedRules (renames : Renames K R ν ν' φ) (hK : MentionsOnly K R) :
    Rule.rename φ '' convertedRules ν R = convertedRules ν' R := by
  have preterminal : ∀ {a}, (Role.preterminal a).NeededBy R →
      Rule.rename φ ⟨ν (.preterminal a), [a]⟩ = ⟨ν' (.preterminal a), [a]⟩ := by
    intro a need
    obtain ⟨_, r, hr, _, ha⟩ := id need
    simp only [Rule.rename, List.map_cons, List.map_nil, renames.moves _ need,
      renames.fixes a ((hK r hr).2 a ha)]
  ext s
  constructor
  · rintro ⟨t, ⟨r, hr, ht⟩ | ⟨a, need, rfl⟩, rfl⟩
    · refine Or.inl ⟨r, hr, ?_⟩
      rw [← renames.map_chainOf hK hr]
      exact List.mem_map_of_mem ht
    · exact Or.inr ⟨a, need, preterminal need⟩
  · rintro (⟨r, hr, hs⟩ | ⟨a, need, rfl⟩)
    · rw [← renames.map_chainOf hK hr] at hs
      obtain ⟨t, ht, rfl⟩ := List.mem_map.1 hs
      exact ⟨t, Or.inl ⟨r, hr, ht⟩, rfl⟩
    · exact ⟨_, Or.inr ⟨a, need, rfl⟩, preterminal need⟩

end Renames

end ContextFree
