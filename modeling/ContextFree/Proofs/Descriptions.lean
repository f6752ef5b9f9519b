/-
  ContextFree/Proofs/Descriptions.lean
  ====================================
  **Which values describe a grammar, and which grammar they describe.**

  An `Outline` is what a description says in names only.  `Json.Describes` ties a
  value to its outline without reading it: there is at most one
  (`Json.Describes.unique`), and `Outline.WellFormed` says that its names are
  declared, and as one kind.

  Every reader has one lemma: what it accepts and what it returns.  They are put
  together by `mapM_eq_ok_iff_exists`, so reading a value succeeds if and only if
  the value describes a well-formed outline (`ofDescription_eq_ok_iff`).  Else there
  is an error of descriptions, or the message of one cannot be made (`ShowsLong`).
-/
import ContextFree.Proofs.DescriptionErrors
import ContextFree.Proofs.WellFormed

namespace ContextFree

/-! ### Descriptions and what they say -/

namespace Json

/-- A list of names is an array of strings, or an object, whose keys are the names. -/
inductive ListsNames : Json → List String → Prop where
  | array (names : List String) : ListsNames (.array (names.map .string)) names
  | object (members : List (String × Json)) : ListsNames (.object members) (members.map Prod.fst)

/-- A list of right-hand sides is an array of lists of names; an empty object holds none. -/
inductive ListsRhss : Json → List (List String) → Prop where
  | array {items : List Json} {rhss : List (List String)} (each : List.Forall₂ ListsNames items rhss) :
      ListsRhss (.array items) rhss
  | empty : ListsRhss (.object []) []

end Json

/-- What a description says: the start, the declared names, and the left-hand sides in order with
    their right-hand sides. -/
structure Outline where
  start : String
  nonterminals : List String
  terminals : List String
  productions : List (String × List (List String))

namespace Outline

def Declares (o : Outline) (name : String) : Prop := name ∈ o.nonterminals ∨ name ∈ o.terminals

/-- The symbol of a declared name. -/
def symbol (o : Outline) (name : String) : Symbol :=
  if name ∈ o.nonterminals then .nonterminal name else .terminal name

/-- A left-hand side with its right-hand sides, later repeats dropped. -/
def entry (o : Outline) (p : String × List (List String)) : Symbol × List Rhs :=
  (.nonterminal p.1, Distinct.ofList (p.2.map fun names => names.map o.symbol))

/-- The grammar of an outline. -/
def grammar (o : Outline) : Grammar :=
  { Grammar.ofSymbols (.nonterminal o.start) (.ofList (o.nonterminals.map Symbol.nonterminal))
      (.ofList (o.terminals.map Symbol.terminal)) with
    table := .ofList (o.productions.map o.entry) }

/-- No name is declared as both kinds, the start and the left-hand sides are declared
    non-terminals, and right-hand sides consist of declared names. -/
structure WellFormed (o : Outline) : Prop where
  disjoint : ∀ name ∈ o.nonterminals, name ∉ o.terminals
  start_mem : o.start ∈ o.nonterminals
  lhs_mem : ∀ p ∈ o.productions, p.1 ∈ o.nonterminals
  declares : ∀ p ∈ o.productions, ∀ r ∈ p.2, ∀ name ∈ r, o.Declares name

end Outline

/-- An object describes an outline: a string `start`, lists of names `nonterminals` and `terminals`,
    and `productions`, which is absent or maps left-hand sides to lists of right-hand sides. -/
structure Json.Describes (d : Json) (o : Outline) : Prop where
  start : d.member? "start" = some (.string o.start)
  nonterminals : ∃ v, d.member? "nonterminals" = some v ∧ v.ListsNames o.nonterminals
  terminals : ∃ v, d.member? "terminals" = some v ∧ v.ListsNames o.terminals
  productions : (d.member? "productions" = none ∧ o.productions = []) ∨
    ∃ members, d.member? "productions" = some (.object members) ∧
      List.Forall₂ (fun m p => m.1 = p.1 ∧ m.2.ListsRhss p.2) members o.productions

/-! ### A value describes one outline at most -/

namespace Json

theorem ListsNames.rightUnique : Relator.RightUnique ListsNames := by
  intro v names names' h h'
  cases h with
  | array =>
    generalize hitems : names.map Json.string = items at h'
    cases h' with
    | array => exact List.map_injective_iff.2 (fun a b hab => Json.string.inj hab) hitems
  | object members =>
    cases h'
    rfl

theorem ListsRhss.rightUnique : Relator.RightUnique ListsRhss := by
  intro v rhss rhss' h h'
  cases h with
  | array each =>
    cases h' with
    | array each' => exact ListsNames.rightUnique.forall₂ each each'
  | empty =>
    cases h'
    rfl

theorem Describes.unique {d : Json} {o o' : Outline} (h : d.Describes o) (h' : d.Describes o') :
    o = o' := by
  have names : ∀ member (names names' : List String),
      (∃ v, d.member? member = some v ∧ v.ListsNames names) →
        (∃ v, d.member? member = some v ∧ v.ListsNames names') → names = names' := by
    rintro member names names' ⟨v, hv, hnames⟩ ⟨v', hv', hnames'⟩
    cases hv.symm.trans hv'
    exact ListsNames.rightUnique hnames hnames'
  have start : o.start = o'.start :=
    Json.string.inj (Option.some.inj (h.start.symm.trans h'.start))
  have productions : o.productions = o'.productions := by
    rcases h.productions with ⟨hnone, hnil⟩ | ⟨ms, hms, each⟩ <;>
      rcases h'.productions with ⟨hnone', hnil'⟩ | ⟨ms', hms', each'⟩
    · rw [hnil, hnil']
    · cases hnone.symm.trans hms'
    · cases hms.symm.trans hnone'
    · cases hms.symm.trans hms'
      refine Relator.RightUnique.forall₂ ?_ each each'
      rintro m p q ⟨hp, hprhss⟩ ⟨hq, hqrhss⟩
      exact Prod.ext (hp.symm.trans hq) (ListsRhss.rightUnique hprhss hqrhss)
  have nonterminals := names _ _ _ h.nonterminals h'.nonterminals
  have terminals := names _ _ _ h.terminals h'.terminals
  cases o
  cases o'
  simp_all

end Json

/-! ### What each reader accepts -/

namespace Description

variable {v : Json} {place : NameListPlace} {nonterminals terminals : NameSet}

theorem readName_eq_ok_iff {name : String} :
    readName place v = .ok name ↔ v = .string name := by
  cases v <;> simp [readName]

theorem readNames_eq_ok_iff {names : List String} :
    readNames place v = .ok names ↔ v.ListsNames names := by
  have strings : ∀ items : List Json,
      items.mapM (readName place) = .ok names ↔ items = names.map .string := by
    intro items
    simp only [mapM_eq_ok_iff, readName_eq_ok_iff]
    rw [← List.forall₂_eq_eq_eq, List.forall₂_map_right_iff]
  constructor
  · intro h
    unfold readNames at h
    split at h
    · rename_i items hitems
      have hnames := (strings items).1 h
      cases v with
      | array items' =>
        cases hitems
        rw [hnames]
        exact .array names
      | object members =>
        have keys : members.map Prod.fst = names := by
          apply List.map_injective_iff.2 (fun a b hab => Json.string.inj hab)
          rw [← hnames, ← Option.some.inj hitems, List.map_map]
          rfl
        rw [← keys]
        exact .object members
      | _ => cases hitems
    · cases h
  · intro h
    cases h with
    | array => exact (strings _).2 rfl
    | object members =>
      refine (strings _).2 ?_
      rw [List.map_map]
      rfl

theorem listsRhss_iff {rhss : List (List String)} :
    v.ListsRhss rhss ↔
      ∃ items, items? v = some items ∧ List.Forall₂ Json.ListsNames items rhss := by
  constructor
  · intro h
    cases h with
    | array each => exact ⟨_, rfl, each⟩
    | empty => exact ⟨[], rfl, .nil⟩
  · rintro ⟨items, hitems, each⟩
    cases v with
    | array items' =>
      cases hitems
      exact .array each
    | object members =>
      cases hitems
      -- The keys of an object are strings, and a string is not a list of names.
      cases members with
      | nil =>
        cases each
        exact .empty
      | cons m ms =>
        cases each with
        | cons first _ => cases first
    | _ => cases hitems

section Resolved

variable {o : Outline} (hns : ∀ name, name ∈ nonterminals ↔ name ∈ o.nonterminals)
  (hts : ∀ name, name ∈ terminals ↔ name ∈ o.terminals)
include hns hts

theorem resolve_eq_ok_iff {name : String} {x : Symbol} :
    resolve nonterminals terminals name = .ok x ↔ o.Declares name ∧ x = o.symbol name := by
  unfold resolve Outline.Declares Outline.symbol
  simp only [hns, hts]
  by_cases hn : name ∈ o.nonterminals
  · simp [hn, eq_comm]
  · by_cases ht : name ∈ o.terminals
    · simp [hn, ht, eq_comm]
    · simp [hn, ht]

theorem readRhs_eq_ok_iff {lhs : String} {r : Rhs} :
    readRhs nonterminals terminals lhs v = .ok r ↔
      ∃ names, v.ListsNames names ∧ (∀ name ∈ names, o.Declares name) ∧ r = names.map o.symbol := by
  have resolved : ∀ names : List String, names.mapM (resolve nonterminals terminals) = .ok r ↔
      (∀ name ∈ names, o.Declares name) ∧ r = names.map o.symbol := by
    intro names
    rw [mapM_eq_ok_iff_exists (R := Eq) (P := o.Declares) (F := o.symbol)]
    · simp
    · simp [resolve_eq_ok_iff hns hts]
  unfold readRhs
  simp only [bind_eq_ok_iff, readNames_eq_ok_iff, resolved]

theorem readProduction_eq_ok_iff {m : String × Json} {e : Symbol × List Rhs} :
    readProduction nonterminals terminals m = .ok e ↔
      ∃ p : String × List (List String), (m.1 = p.1 ∧ m.2.ListsRhss p.2) ∧
        (p.1 ∈ o.nonterminals ∧ ∀ r ∈ p.2, ∀ name ∈ r, o.Declares name) ∧ e = o.entry p := by
  have read : ∀ (items : List Json) (rs : List Rhs),
      items.mapM (readRhs nonterminals terminals m.1) = .ok rs ↔
        ∃ rhss, List.Forall₂ Json.ListsNames items rhss ∧
          (∀ r ∈ rhss, ∀ name ∈ r, o.Declares name) ∧
          rs = rhss.map fun names => names.map o.symbol :=
    fun items rs => mapM_eq_ok_iff_exists fun _ _ => readRhs_eq_ok_iff hns hts
  constructor
  · intro h
    unfold readProduction at h
    split at h
    · rename_i hm
      split at h
      · rename_i items hitems
        obtain ⟨rs, hrs, he⟩ := bind_eq_ok_iff.1 h
        obtain ⟨rhss, each, declared, rfl⟩ := (read items rs).1 hrs
        exact ⟨(m.1, rhss), ⟨rfl, listsRhss_iff.2 ⟨items, hitems, each⟩⟩,
          ⟨(hns m.1).1 hm, declared⟩, (Except.ok.inj he).symm⟩
      · cases h
    · cases h
  · rintro ⟨p, ⟨hp, hrhss⟩, ⟨hlhs, declared⟩, rfl⟩
    obtain ⟨items, hitems, each⟩ := listsRhss_iff.1 hrhss
    unfold readProduction
    rw [if_pos ((hns m.1).2 (hp ▸ hlhs)), hitems]
    refine bind_eq_ok_iff.2 ⟨_, (read items _).2 ⟨p.2, each, declared, rfl⟩, ?_⟩
    rw [hp]
    rfl

end Resolved

theorem readStart_eq_ok_iff {start : String} :
    readStart v = .ok start ↔ v = .string start := by
  cases v <;> simp [readStart]

theorem readMembers_eq_ok_iff {members : List (String × Json)} :
    readMembers v = .ok members ↔ v = .object members := by
  cases v <;> simp [readMembers]

theorem required_eq_ok_iff {member : String} {d : Json} :
    required d member = .ok v ↔ d.member? member = some v := by
  unfold required
  split <;> simp_all

theorem declaredTwice_eq_nil_iff {ns ts : List String} :
    ((.ofList ns : NameSet).toList.filter ((.ofList ts : NameSet).contains ·)) = [] ↔
      ∀ name ∈ ns, name ∉ ts := by
  simp [List.filter_eq_nil_iff]

theorem toGrammar_eq_ok_iff {d : Description} {g : Grammar} :
    d.toGrammar = .ok g ↔ ∃ o : Outline, d.start = .string o.start ∧
      d.nonterminals.ListsNames o.nonterminals ∧ d.terminals.ListsNames o.terminals ∧
      (∃ members, d.productions = .object members ∧
        List.Forall₂ (fun m p => m.1 = p.1 ∧ m.2.ListsRhss p.2) members o.productions) ∧
      o.WellFormed ∧ g = o.grammar := by
  have named : ∀ (names : List String) name, name ∈ (.ofList names : NameSet) ↔ name ∈ names :=
    fun names name => by simp
  have read : ∀ (o : Outline) (members : List (String × Json)) (es : List (Symbol × List Rhs)),
      members.mapM (readProduction (.ofList o.nonterminals) (.ofList o.terminals)) = .ok es ↔
        ∃ ps : List (String × List (List String)),
          List.Forall₂ (fun m p => m.1 = p.1 ∧ m.2.ListsRhss p.2) members ps ∧
          (∀ p ∈ ps, p.1 ∈ o.nonterminals ∧ ∀ r ∈ p.2, ∀ name ∈ r, o.Declares name) ∧
          es = ps.map o.entry :=
    fun o members es => mapM_eq_ok_iff_exists fun _ _ =>
      readProduction_eq_ok_iff (named o.nonterminals) (named o.terminals)
  unfold toGrammar
  simp only [bind_eq_ok_iff, readStart_eq_ok_iff, readNames_eq_ok_iff, readMembers_eq_ok_iff]
  constructor
  · rintro ⟨start, hstart, ns, hns, ts, hts, members, hmembers, h⟩
    split at h
    · cases h
    · rename_i hboth
      split at h
      · cases h
      · rename_i hmem
        obtain ⟨es, hes, hg⟩ := bind_eq_ok_iff.1 h
        obtain ⟨ps, each, declared, rfl⟩ := (read ⟨start, ns, ts, []⟩ members es).1 hes
        refine ⟨⟨start, ns, ts, ps⟩, hstart, hns, hts, ⟨members, hmembers, each⟩, ?_,
          (Except.ok.inj hg).symm⟩
        exact
          { disjoint := declaredTwice_eq_nil_iff.1 (by simpa using hboth)
            start_mem := (named ns start).1 (not_not.1 hmem)
            lhs_mem := fun p hp => (declared p hp).1
            declares := fun p hp => (declared p hp).2 }
  · rintro ⟨o, hstart, hns, hts, ⟨members, hmembers, each⟩, ho, rfl⟩
    refine ⟨o.start, hstart, o.nonterminals, hns, o.terminals, hts, members, hmembers, ?_⟩
    rw [if_neg (by simpa using declaredTwice_eq_nil_iff.2 ho.disjoint),
      if_neg (not_not.2 ((named o.nonterminals o.start).2 ho.start_mem))]
    refine bind_eq_ok_iff.2 ⟨o.productions.map o.entry, (read o members _).2 ?_, rfl⟩
    exact ⟨o.productions, each, fun p hp => ⟨ho.lhs_mem p hp, ho.declares p hp⟩, rfl⟩

theorem ofJson_eq_ok_iff {v : Json} {d : Description} :
    ofJson v = .ok d ↔ v.member? "start" = some d.start ∧
      v.member? "nonterminals" = some d.nonterminals ∧ v.member? "terminals" = some d.terminals ∧
      (v.member? "productions").getD (.object []) = d.productions := by
  cases v with
  | object members =>
    unfold ofJson
    simp only [bind_eq_ok_iff, required_eq_ok_iff]
    constructor
    · rintro ⟨start, hstart, nonterminals, hns, terminals, hts, hd⟩
      cases hd
      exact ⟨hstart, hns, hts, rfl⟩
    · rintro ⟨hstart, hns, hts, hproductions⟩
      refine ⟨_, hstart, _, hns, _, hts, ?_⟩
      rw [hproductions]
      rfl
  | _ => simp [ofJson, Json.member?]

/-! ### Reading a value -/

theorem read_eq_ok_iff {v : Json} {g : Grammar} :
    read v = .ok g ↔ ∃ o : Outline, v.Describes o ∧ o.WellFormed ∧ g = o.grammar := by
  unfold read
  simp only [bind_eq_ok_iff, ofJson_eq_ok_iff, toGrammar_eq_ok_iff]
  constructor
  · rintro ⟨d, ⟨hstart, hns, hts, hproductions⟩, o, start, ns, ts, ⟨members, hms, each⟩, ho, rfl⟩
    refine ⟨o, ⟨?_, ⟨_, hns, ns⟩, ⟨_, hts, ts⟩, ?_⟩, ho, rfl⟩
    · rw [hstart, start]
    · rw [hms] at hproductions
      cases hv : v.member? "productions" with
      | none =>
        rw [hv] at hproductions
        cases hproductions
        exact Or.inl ⟨rfl, List.forall₂_nil_left_iff.1 each⟩
      | some w =>
        rw [hv] at hproductions
        cases hproductions
        exact Or.inr ⟨members, rfl, each⟩
  · rintro ⟨o, ⟨hstart, ⟨ns, hns, nsNames⟩, ⟨ts, hts, tsNames⟩, hproductions⟩, ho, rfl⟩
    refine ⟨⟨.string o.start, ns, ts, (v.member? "productions").getD (.object [])⟩,
      ⟨hstart, hns, hts, rfl⟩, o, rfl, nsNames, tsNames, ?_, ho, rfl⟩
    rcases hproductions with ⟨hnone, hnil⟩ | ⟨members, hsome, each⟩
    · refine ⟨[], by rw [hnone]; rfl, ?_⟩
      rw [hnil]
      exact .nil
    · exact ⟨members, by rw [hsome]; rfl, each⟩

end Description

/-- A value is read as the grammar of the well-formed outline that it describes. -/
theorem Grammar.ofDescription_eq_ok_iff {v : Json} {g : Grammar} :
    ofDescription v = .ok g ↔ ∃ o : Outline, v.Describes o ∧ o.WellFormed ∧ g = o.grammar := by
  rw [ofDescription, mapError_eq_ok_iff, Description.read_eq_ok_iff]

namespace Outline

variable {o : Outline}

theorem mem_nonterminals_grammar (ho : o.WellFormed) {x : Symbol} :
    x ∈ o.grammar.nonterminals ↔ ∃ name ∈ o.nonterminals, x = .nonterminal name := by
  simp only [grammar, Grammar.ofSymbols, SymbolSet.mem_insert, SymbolSet.mem_ofList,
    List.mem_map, eq_comm (a := x)]
  refine ⟨?_, Or.inr⟩
  rintro (h | h)
  · exact ⟨o.start, ho.start_mem, h⟩
  · exact h

theorem mem_terminals_grammar {x : Symbol} :
    x ∈ o.grammar.terminals ↔ ∃ name ∈ o.terminals, x = .terminal name := by
  simp only [grammar, Grammar.ofSymbols, SymbolSet.mem_ofList, List.mem_map, eq_comm (a := x)]

theorem declares_symbol (ho : o.WellFormed) {name : String} (h : o.Declares name) :
    o.grammar.Declares (o.symbol name) := by
  unfold symbol
  split
  · rename_i hn
    exact Or.inl ((mem_nonterminals_grammar ho).2 ⟨name, hn, rfl⟩)
  · rename_i hn
    exact Or.inr (mem_terminals_grammar.2 ⟨name, h.resolve_left hn, rfl⟩)

theorem keys_grammar : o.grammar.table.keys =
    Distinct.ofList (o.productions.map fun p => .nonterminal p.1) := by
  have keys : o.grammar.table.keys = Distinct.ofList ((o.productions.map o.entry).map Prod.fst) :=
    Table.keys_ofList _
  rw [keys, List.map_map]
  rfl

theorem exists_production_of_mem_rhss {A : Symbol} {r : Rhs} (hr : r ∈ o.grammar.rhss A) :
    ∃ p ∈ o.productions, A = .nonterminal p.1 ∧ ∃ names ∈ p.2, r = names.map o.symbol := by
  obtain ⟨rs, hrs, hmem⟩ := Grammar.exists_entry_of_mem_rhss hr
  obtain ⟨p, hp, he⟩ := List.mem_map.1 (Table.mem_of_mem_entries_ofList hrs)
  cases he
  obtain ⟨names, hnames, rfl⟩ := List.mem_map.1 (Distinct.mem_ofList.1 hmem)
  exact ⟨p, hp, rfl, names, hnames, rfl⟩

theorem wellFormed_grammar (ho : o.WellFormed) : o.grammar.WellFormed where
  start_mem := (mem_nonterminals_grammar ho).2 ⟨o.start, ho.start_mem, rfl⟩
  isNonterminal_of_mem x hx := by
    obtain ⟨name, _, rfl⟩ := (mem_nonterminals_grammar ho).1 hx
    rfl
  isTerminal_of_mem x hx := by
    obtain ⟨name, _, rfl⟩ := mem_terminals_grammar.1 hx
    rfl
  name_ne x hx a ha := by
    obtain ⟨name, hname, rfl⟩ := (mem_nonterminals_grammar ho).1 hx
    obtain ⟨name', hname', rfl⟩ := mem_terminals_grammar.1 ha
    intro heq
    have same : name = name' := heq
    exact ho.disjoint name hname (same ▸ hname')
  lhs_mem A hA := by
    rw [keys_grammar, Distinct.mem_ofList] at hA
    obtain ⟨p, hp, rfl⟩ := List.mem_map.1 hA
    exact (mem_nonterminals_grammar ho).2 ⟨p.1, ho.lhs_mem p hp, rfl⟩
  declares A r hr x hx := by
    obtain ⟨p, hp, _, names, hnames, rfl⟩ := exists_production_of_mem_rhss hr
    obtain ⟨name, hname, rfl⟩ := List.mem_map.1 hx
    exact declares_symbol ho (ho.declares p hp names hnames name hname)

end Outline

namespace Grammar

/-- `S -> a | a S | ε | a` with the terminals and one right-hand side given as objects. -/
def mixedDescription : Json :=
  .object
    [ ("start", .string "S"),
      ("nonterminals", .array [.string "S"]),
      ("terminals", .object [("a", .null)]),
      ("productions", .object
        [("S", .array [.array [.string "a"], .object [("a", .null), ("S", .bool true)], .array [],
          .array [.string "a"]])]) ]

end Grammar

end ContextFree
