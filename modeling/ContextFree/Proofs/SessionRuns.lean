/-
  ContextFree/Proofs/SessionRuns.lean
  ===================================
  **Sessions keep their grammars consistent**, and a command that fails changes
  nothing (`performAll_consistent`).

  `step_cases` says all that a command can do to the grammars of a session: it leaves
  them, stores one that it has read, or stores what its action makes of one that is
  there.  The invariant and the frame (`get?_step`) are read off it; neither looks at
  the commands again.  `step_error_cases` says why a command may fail: no elimination,
  clean-up or conversion does on a grammar that is there, valid or not.

  Beside the commands, a session may have its supply exchanged for any other one at
  any time.  So the conversion also runs with supplies that do not know the names of
  the grammar that they serve.
-/
import ContextFree.Session
import ContextFree.Proofs.Consistency

namespace ContextFree.Session

/-! ### What a command does to the grammars -/

/-- What an action makes of a grammar, with whatever supply. -/
inductive Action.Makes (g : Grammar) : Action → Grammar → Prop where
  | addRule (r : Rule) : Makes g (.addRule r) (g.addRule r)
  | setRhss (A : Symbol) (rhss : List Rhs) : Makes g (.setRhss A rhss) (g.setRhss A rhss)
  | copy : Makes g .copy g
  | withoutEpsilon : Makes g .withoutEpsilon g.withoutEpsilon
  | withoutUnits : Makes g .withoutUnits g.withoutUnits
  | onlyReachable : Makes g .onlyReachable g.onlyReachable
  | onlyGenerating : Makes g .onlyGenerating g.onlyGenerating
  | chomskyForm {h : Grammar} (normal : g.chomskyForm = .ok h) : Makes g .chomskyForm h
  | separateTerminals (f : NameSupply) : Makes g .separateTerminals (g.separateTerminals f).1
  | splitLong (f : NameSupply) : Makes g .splitLong (g.splitLong f).1
  | toChomsky (shared : Bool) (f : NameSupply) : Makes g (.toChomsky shared) (g.toChomsky f).1

/-- A grammar that a command stores: one that it has read, or one that its action makes. -/
inductive Command.Stores (s : Session) (c : Command) : Grammar → Prop where
  | read {source : Source} {g : Grammar} (load : c.action = .load source)
      (read : source.grammar = .ok g) : Stores s c g
  | made {g h : Grammar} (present : s.grammars.get? c.source = some g)
      (makes : c.action.Makes g h) : Stores s c h

/-- How the grammars of a session change: not at all, or under one of the two names. -/
inductive Command.Changes (s : Session) (c : Command) (s' : Session) : Prop where
  | none (same : s'.grammars = s.grammars) : Changes s c s'
  | one {name : String} {g : Grammar} (place : name = c.source ∨ name = c.target)
      (stores : c.Stores s g) (set : s'.grammars = s.grammars.set name g) : Changes s c s'

variable {s s' : Session} {c : Command} {a : Answer} {e : Error}

theorem grammar_eq_ok_iff {name : String} {g : Grammar} :
    s.grammar name = .ok g ↔ s.grammars.get? name = some g := by
  unfold grammar
  cases s.grammars.get? name <;> simp

theorem changes_of_map {f : Grammar → Session × Answer}
    (made : ∀ g, s.grammars.get? c.source = some g → c.Changes s (f g).1)
    (h : (s.grammar c.source).map f = .ok (s', a)) : c.Changes s s' := by
  obtain ⟨g, hg, hf⟩ := map_eq_ok_iff.1 h
  have changes := made g (grammar_eq_ok_iff.1 hg)
  rwa [hf] at changes

theorem lift_eq_ok_iff {α : Type} {r : Except Failure α} {x : α} : lift r = .ok x ↔ r = .ok x :=
  mapError_eq_ok_iff

/-- A command that succeeds leaves the grammars, or stores one that it has read or made. -/
theorem step_cases (h : s.step c = .ok (s', a)) : c.Changes s s' := by
  obtain ⟨action, source, target⟩ := c
  cases action with
  | startNames _ | newName _ | namedName _ _ | showNames =>
    cases h
    exact .none rfl
  | startDeclaredNames | view | render | describe | isChomsky | unitReach _ =>
    exact changes_of_map (fun _ _ => .none rfl) h
  | check | same _ =>
    obtain ⟨_, _, h⟩ := bind_eq_ok_iff.1 h
    obtain ⟨_, _, h⟩ := bind_eq_ok_iff.1 h
    cases h
    exact .none rfl
  | load input =>
    obtain ⟨g, hg, stored⟩ := map_eq_ok_iff.1 h
    cases stored
    exact .one (Or.inr rfl) (.read rfl (lift_eq_ok_iff.1 hg)) rfl
  | addRule r => exact changes_of_map (fun _ hg => .one (Or.inl rfl) (.made hg (.addRule r)) rfl) h
  | setRhss A rhss =>
    exact changes_of_map (fun _ hg => .one (Or.inl rfl) (.made hg (.setRhss A rhss)) rfl) h
  | copy => exact changes_of_map (fun _ hg => .one (Or.inr rfl) (.made hg .copy) rfl) h
  | withoutEpsilon =>
    exact changes_of_map (fun _ hg => .one (Or.inr rfl) (.made hg .withoutEpsilon) rfl) h
  | withoutUnits =>
    exact changes_of_map (fun _ hg => .one (Or.inr rfl) (.made hg .withoutUnits) rfl) h
  | onlyReachable =>
    exact changes_of_map (fun _ hg => .one (Or.inr rfl) (.made hg .onlyReachable) rfl) h
  | onlyGenerating =>
    exact changes_of_map (fun _ hg => .one (Or.inr rfl) (.made hg .onlyGenerating) rfl) h
  | chomskyForm =>
    obtain ⟨g, hg, h⟩ := bind_eq_ok_iff.1 h
    obtain ⟨normal, hnormal, h⟩ := bind_eq_ok_iff.1 h
    cases h
    have made := mapError_eq_ok_iff.1 (lift_eq_ok_iff.1 hnormal)
    exact .one (Or.inr rfl) (.made (grammar_eq_ok_iff.1 hg) (.chomskyForm made)) rfl
  | separateTerminals =>
    exact changes_of_map (fun _ hg => .one (Or.inr rfl) (.made hg (.separateTerminals _)) rfl) h
  | splitLong =>
    exact changes_of_map (fun _ hg => .one (Or.inr rfl) (.made hg (.splitLong _)) rfl) h
  | toChomsky shared =>
    cases shared with
    | true =>
      exact changes_of_map (fun _ hg => .one (Or.inr rfl) (.made hg (.toChomsky true _)) rfl) h
    | false =>
      exact changes_of_map (fun _ hg => .one (Or.inr rfl) (.made hg (.toChomsky false _)) rfl) h

/-- A command leaves every grammar as it is, but for those under its two names. -/
theorem get?_step (h : s.step c = .ok (s', a)) {name : String} (hsource : name ≠ c.source)
    (htarget : name ≠ c.target) : s'.grammars.get? name = s.grammars.get? name := by
  cases step_cases h with
  | none same => rw [same]
  | @one k g place _ set =>
    have other : k ≠ name := by
      rintro rfl
      exact place.elim hsource htarget
    rw [set, Table.get?_set, if_neg other]

/-! ### Why a command fails -/

/-- Why a command may fail: a grammar that it names is not there, what it reads is refused, or the
    grammar that it checks is not valid. -/
inductive Command.Fails (s : Session) (c : Command) : Prop where
  | absent {name : String} (named : name = c.source ∨ c.action = .same name)
      (missing : s.grammars.get? name = none) : Fails s c
  | refused {source : Source} {f : Failure} (load : c.action = .load source)
      (refused : source.grammar = .error f) : Fails s c
  | invalid {g : Grammar} (checks : c.action = .check ∨ c.action = .chomskyForm)
      (present : s.grammars.get? c.source = some g) (invalid : ¬ g.Valid) : Fails s c

theorem fails_of_grammar {name : String} (named : name = c.source ∨ c.action = .same name)
    (h : s.grammar name = .error e) : c.Fails s := by
  unfold grammar at h
  cases hg : s.grammars.get? name with
  | none => exact .absent named hg
  | some g =>
    rw [hg] at h
    cases h

theorem fails_of_map {f : Grammar → Session × Answer}
    (h : (s.grammar c.source).map f = .error e) : c.Fails s := by
  cases hg : s.grammar c.source with
  | error e' => exact fails_of_grammar (Or.inl rfl) hg
  | ok g =>
    rw [hg] at h
    cases h

/-- On a grammar that is there and valid no command fails, and only a check and the normal form ask
    for more than that it is there. -/
theorem step_error_cases (h : s.step c = .error e) : c.Fails s := by
  obtain ⟨action, source, target⟩ := c
  cases action with
  | startNames _ | newName _ | namedName _ _ | showNames => cases h
  | startDeclaredNames | view | render | describe | isChomsky | unitReach _ | addRule _ | setRhss _ _
    | copy | withoutEpsilon | withoutUnits | onlyReachable | onlyGenerating | separateTerminals
    | splitLong => exact fails_of_map h
  | toChomsky shared => cases shared <;> exact fails_of_map h
  | load input =>
    cases hg : input.grammar with
    | error f => exact .refused rfl hg
    | ok g =>
      simp only [step, hg] at h
      cases h
  | check =>
    cases hg : s.grammar source with
    | error e' => exact fails_of_grammar (Or.inl rfl) hg
    | ok g =>
      refine .invalid (Or.inl rfl) (grammar_eq_ok_iff.1 hg) fun valid => ?_
      simp only [step, hg, bind, Except.bind, valid.check_eq_ok] at h
      cases h
  | chomskyForm =>
    cases hg : s.grammar source with
    | error e' => exact fails_of_grammar (Or.inl rfl) hg
    | ok g =>
      refine .invalid (Or.inr rfl) (grammar_eq_ok_iff.1 hg) fun valid => ?_
      simp only [step, hg, bind, Except.bind, valid.chomskyForm_eq] at h
      cases h
  | same other =>
    cases hg : s.grammar source with
    | error e' => exact fails_of_grammar (Or.inl rfl) hg
    | ok g =>
      cases hother : s.grammar other with
      | error e' => exact fails_of_grammar (Or.inr rfl) hother
      | ok g' =>
        simp only [step, hg, hother] at h
        cases h

/-! ### The invariant -/

/-- All actions but those that put a grammar or right-hand sides in place as they stand. -/
def Action.isConstructive : Action → Bool
  | .load (.given _) => false
  | .setRhss _ _ => false
  | _ => true

/-- Every grammar of the session is consistent. -/
def Consistent (s : Session) : Prop :=
  ∀ name g, s.grammars.get? name = some g → g.Consistent

theorem consistent_of_read {source : Source} {g : Grammar}
    (constructive : (Action.load source).isConstructive = true) (read : source.grammar = .ok g) :
    g.Consistent := by
  cases source with
  | text t => exact Grammar.consistent_ofText (mapError_eq_ok_iff.1 read)
  | data v => exact Grammar.consistent_ofDescription (mapError_eq_ok_iff.1 read)
  | given h => cases constructive

theorem Action.Makes.consistent {action : Action} {g h : Grammar} (makes : action.Makes g h)
    (constructive : action.isConstructive = true) (hg : g.Consistent) : h.Consistent := by
  cases makes with
  | addRule r => exact hg.addRule r
  | setRhss A rhss => cases constructive
  | copy => exact hg
  | withoutEpsilon => exact hg.withoutEpsilon
  | withoutUnits => exact hg.withoutUnits
  | onlyReachable => exact hg.onlyReachable
  | onlyGenerating => exact hg.onlyGenerating
  | chomskyForm normal => exact Grammar.consistent_chomskyForm normal
  | separateTerminals f => exact Grammar.consistent_separateTerminals g f
  | splitLong f => exact Grammar.consistent_splitLong g f
  | toChomsky shared f => exact Grammar.consistent_toChomsky g f

theorem Consistent.step (hs : s.Consistent) (constructive : c.action.isConstructive = true)
    (h : s.step c = .ok (s', a)) : s'.Consistent := by
  cases step_cases h with
  | none same =>
    unfold Consistent
    rw [same]
    exact hs
  | @one k h _ stores set =>
    have hh : h.Consistent := by
      cases stores with
      | read load read => exact consistent_of_read (load ▸ constructive) read
      | made present makes => exact makes.consistent constructive (hs _ _ present)
    intro name g hg
    rw [set, Table.get?_set] at hg
    split at hg
    · exact Option.some.inj hg ▸ hh
    · exact hs name g hg

/-! ### Whole sessions -/

/-- What happens in a session: a command is given, or the supply is exchanged. -/
inductive Act where
  | command (c : Command)
  | exchange (names : NameSupply)

/-- The session after an act; a command that fails leaves it as it is. -/
def perform (s : Session) : Act → Session
  | .command c =>
    match s.step c with
    | .ok (s', _) => s'
    | .error _ => s
  | .exchange names => { s with names := names }

def performAll (s : Session) (acts : List Act) : Session := acts.foldl perform s

def Act.isConstructive : Act → Bool
  | .command c => c.action.isConstructive
  | .exchange _ => true

theorem perform_of_ok (h : s.step c = .ok (s', a)) : s.perform (.command c) = s' := by
  simp only [perform, h]

theorem perform_of_error (h : s.step c = .error e) : s.perform (.command c) = s := by
  simp only [perform, h]

theorem run_cons_of_ok (h : s.step c = .ok (s', a)) (cs : List Command) :
    s.run (c :: cs) = .ok a :: s'.run cs := by
  simp only [run, h]

theorem run_cons_of_error (h : s.step c = .error e) (cs : List Command) :
    s.run (c :: cs) = .error e :: s.run cs := by
  simp only [run, h]

/-- A run goes on from the session that the commands before have left. -/
theorem run_append (s : Session) (cs ds : List Command) :
    s.run (cs ++ ds) = s.run cs ++ (s.performAll (cs.map .command)).run ds := by
  induction cs generalizing s with
  | nil => rfl
  | cons c cs ih =>
    have rest : s.performAll ((c :: cs).map .command) =
        (s.perform (.command c)).performAll (cs.map .command) := rfl
    rw [rest, List.cons_append]
    cases hstep : s.step c with
    | error e =>
      rw [perform_of_error hstep, run_cons_of_error hstep, run_cons_of_error hstep, ih,
        List.cons_append]
    | ok p =>
      rw [perform_of_ok hstep, run_cons_of_ok hstep, run_cons_of_ok hstep, ih, List.cons_append]

theorem Consistent.perform (hs : s.Consistent) {act : Act} (constructive : act.isConstructive = true) :
    (s.perform act).Consistent := by
  cases act with
  | exchange names => exact hs
  | command c =>
    cases hstep : s.step c with
    | error e =>
      rw [perform_of_error hstep]
      exact hs
    | ok p =>
      rw [perform_of_ok hstep]
      exact hs.step constructive hstep

theorem Consistent.performAll (hs : s.Consistent) {acts : List Act}
    (constructive : ∀ act ∈ acts, act.isConstructive = true) : (s.performAll acts).Consistent := by
  induction acts generalizing s with
  | nil => exact hs
  | cons act acts ih =>
    obtain ⟨first, rest⟩ := List.forall_mem_cons.1 constructive
    exact ih (hs.perform first) rest

/-- After any acts on grammars that were read, every grammar declares its start symbol and its
    left-hand sides and repeats no right-hand side.  A command that then fails leaves the session as
    it is, and the commands after it go on from there. -/
theorem performAll_consistent (names : NameSupply) (acts : List Act)
    (constructive : ∀ act ∈ acts, act.isConstructive = true) :
    let s := (Session.mk ∅ names).performAll acts
    (∀ name g, s.grammars.get? name = some g →
        g.start ∈ g.nonterminals ∧ (∀ A ∈ g.table.keys, A ∈ g.nonterminals) ∧
          ∀ A, (g.rhss A).Nodup) ∧
      ∀ c e, s.step c = .error e →
        s.perform (.command c) = s ∧ ∀ cs, s.run (c :: cs) = .error e :: s.run cs := by
  intro s
  have empty : (Session.mk ∅ names).Consistent := fun _ _ h => nomatch h
  have consistent : s.Consistent := empty.performAll constructive
  constructor
  · intro name g hg
    obtain ⟨start_mem, lhs_mem, nodup_rhss⟩ := consistent name g hg
    exact ⟨start_mem, lhs_mem, nodup_rhss⟩
  · intro c e hc
    exact ⟨perform_of_error hc, run_cons_of_error hc⟩

/-- Reads `S -> a T_a b | ε` and `T_a -> a`, adds `a -> X`, which has a terminal on the left and an
    undeclared symbol, and converts the result with a supply that has no name in use. -/
def carelessActs : List Act :=
  let source : Json := .object
    [ ("start", .string "S"), ("nonterminals", .array [.string "S", .string "T_a"]),
      ("terminals", .array [.string "a", .string "b"]),
      ("productions", .object
        [ ("S", .array [.array [.string "a", .string "T_a", .string "b"], .array []]),
          ("T_a", .array [.array [.string "a"]]) ]) ]
  [ .command ⟨.load (.data source), "", "g"⟩,
    .command ⟨.addRule ⟨.terminal "a", [.nonterminal "X"]⟩, "g", "g"⟩,
    .exchange (.ofUsed ∅),
    .command ⟨.toChomsky true, "g", "h"⟩ ]

/-- The conversion hands out the name that is there already and adds `T_a -> a` to its rules; the
    result is not valid, and its normal form fails. -/
theorem performAll_consistent_carelessActs :
    let s := (Session.mk ∅ (.ofUsed ∅)).performAll carelessActs
    let normalForm : Command := ⟨.chomskyForm, "h", "k"⟩
    (∃ g, s.grammars.get? "h" = some g ∧ g.rhss (.nonterminal "T_a") = [[.terminal "a"]] ∧
        (g.rhss (.nonterminal "T_a")).Nodup ∧ .terminal "a" ∈ g.table.keys ∧
        .terminal "a" ∈ g.nonterminals) ∧
      s.step normalForm = .error (.failure (.defect (.declaredTwice ["a"]))) ∧
        s.perform (.command normalForm) = s := by
  intro s normalForm
  have consistent := performAll_consistent (.ofUsed ∅) carelessActs (by decide)
  have failed : s.step normalForm = .error (.failure (.defect (.declaredTwice ["a"]))) := rfl
  refine ⟨⟨_, rfl, rfl, ?_, by decide, ?_⟩, failed, (consistent.2 _ _ failed).1⟩
  · exact (consistent.1 "h" _ rfl).2.2 _
  · exact (consistent.1 "h" _ rfl).2.1 _ (by decide)

end ContextFree.Session
