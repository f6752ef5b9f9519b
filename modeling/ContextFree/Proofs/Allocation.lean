/-
  ContextFree/Proofs/Allocation.lean
  ==================================
  **The law of allocation**: whatever a supply has been used for before, a numbered
  name gets the least number that is free, a hinted name is only numbered when it is
  in use, and a name is handed out once.

  A supply is used by calls of its own and by the passes of the conversion, which
  make calls on the way (`Use.calls`).  Either way it goes through a sequence of
  calls (`performAll_eq_run`), so the law is proved for those.

  The search for a number starts behind the last one tried for its stem.  That no
  free number is skipped is the invariant `Settled`: every number up to the last one
  tried is in use.  Stems overlap, as `X` and `X1` do, so a numbered name may come
  into use through another stem; the names in use only grow, and the invariant does
  not care who has taken them.
-/
import ContextFree.Chomsky
import ContextFree.Proofs.FreshNames

namespace ContextFree

namespace NameSupply

/-- A call to a supply. -/
inductive Call where
  | next (stem : String)
  | hinted (stem hint : String)

def Call.answer (f : NameSupply) : Call → String × NameSupply
  | next stem => f.next stem
  | hinted stem hint => f.hinted stem hint

/-- Answers calls in turn: the names handed out, and the supply that is left. -/
def run : List Call → NameSupply → List String × NameSupply
  | [], f => ([], f)
  | c :: cs, f => ((c.answer f).1 :: (run cs (c.answer f).2).1, (run cs (c.answer f).2).2)

/-- `k` is the least number of a stem whose name is not in use. -/
structure LeastFree (used : NameSet) (stem : String) (k : Nat) : Prop where
  one_le : 1 ≤ k
  not_mem : numbered stem k ∉ used
  mem_of_lt : ∀ j, 1 ≤ j → j < k → numbered stem j ∈ used

/-- Every number up to the last one tried is in use, for each stem. -/
def Settled (f : NameSupply) : Prop :=
  ∀ stem j, 1 ≤ j → j ≤ f.lastNumber stem → numbered stem j ∈ f.used

/-- What the next call gets from a supply, whichever call it is. -/
structure Lawful (f : NameSupply) : Prop where
  settled : f.Settled
  next_eq : ∀ stem, ∃ k, LeastFree f.used stem k ∧ k ≤ f.used.size + 1 ∧
    (f.next stem).1 = numbered stem k
  hinted_of_free : ∀ stem hint, stem ++ "_" ++ hint ∉ f.used →
    (f.hinted stem hint).1 = stem ++ "_" ++ hint
  hinted_of_used : ∀ stem hint, stem ++ "_" ++ hint ∈ f.used →
    f.hinted stem hint = f.next (stem ++ "_" ++ hint)
  used_eq : ∀ c : Call, (c.answer f).2.used = f.used.insert (c.answer f).1

variable {f : NameSupply}

/-! ### One call -/

theorem Call.gives (c : Call) (f : NameSupply) : f.Gives (c.answer f).1 (c.answer f).2 := by
  cases c with
  | next stem => exact f.gives_next stem
  | hinted stem hint => exact f.gives_hinted stem hint

theorem mem_used_answer {c : Call} {name : String} :
    name ∈ (c.answer f).2.used ↔ name = (c.answer f).1 ∨ name ∈ f.used := by
  rw [(c.gives f).used_eq, NameSet.mem_insert]

/-- A settled supply finds the least free number, and the names in use bound it. -/
theorem Settled.next_eq (h : f.Settled) (stem : String) :
    ∃ k, LeastFree f.used stem k ∧ k ≤ f.used.size + 1 ∧ (f.next stem).1 = numbered stem k := by
  obtain ⟨low, _, before, _⟩ :=
    @firstFree_spec f.used stem f.used.size (f.lastNumber stem + 1)
  have least : LeastFree f.used stem
      (firstFree f.used stem f.used.size (f.lastNumber stem + 1)) := by
    have one : 1 ≤ firstFree f.used stem f.used.size (f.lastNumber stem + 1) := by omega
    refine ⟨one, numbered_firstFree_not_mem (f.lastNumber stem + 1), ?_⟩
    intro j hj hlt
    -- The search has only seen the numbers behind the last one tried.
    by_cases htried : j ≤ f.lastNumber stem
    · exact h stem j hj htried
    · exact before j (by omega) hlt
  have name : (f.next stem).1 =
      numbered stem (firstFree f.used stem f.used.size (f.lastNumber stem + 1)) := rfl
  refine ⟨_, least, ?_, name⟩
  obtain ⟨j, hj, hle, hfree⟩ := exists_free f.used stem 1
  by_cases hlt : j < firstFree f.used stem f.used.size (f.lastNumber stem + 1)
  · exact absurd (least.mem_of_lt j hj hlt) hfree
  · omega

theorem lastNumber_next (f : NameSupply) (stem s : String) :
    (f.next stem).2.lastNumber s =
      if stem = s then firstFree f.used stem f.used.size (f.lastNumber stem + 1)
      else f.lastNumber s := by
  have same : (f.next stem).2.lastTried =
      f.lastTried.set stem (firstFree f.used stem f.used.size (f.lastNumber stem + 1)) := rfl
  unfold lastNumber at *
  rw [same, Table.get?_set]
  split <;> rfl

theorem Settled.next (h : f.Settled) (stem : String) : (f.next stem).2.Settled := by
  intro s j hj hle
  rw [used_next, NameSet.mem_insert]
  rw [lastNumber_next] at hle
  split at hle
  · rename_i hs
    subst hs
    -- Up to the number found: behind it all are in use, and its own name is in use now.
    obtain ⟨_, _, before, _⟩ :=
      @firstFree_spec f.used stem f.used.size (f.lastNumber stem + 1)
    by_cases htried : j ≤ f.lastNumber stem
    · exact Or.inr (h stem j hj htried)
    · rcases Nat.lt_or_eq_of_le hle with hlt | rfl
      · exact Or.inr (before j (by omega) hlt)
      · exact Or.inl rfl
  · exact Or.inr (h s j hj hle)

theorem Settled.give (h : f.Settled) (name : String) : (f.give name).2.Settled := by
  intro s j hj hle
  exact NameSet.mem_insert.2 (Or.inr (h s j hj hle))

theorem hinted_of_free {stem hint : String} (h : stem ++ "_" ++ hint ∉ f.used) :
    f.hinted stem hint = f.give (stem ++ "_" ++ hint) := if_neg h

theorem hinted_of_used {stem hint : String} (h : stem ++ "_" ++ hint ∈ f.used) :
    f.hinted stem hint = f.next (stem ++ "_" ++ hint) := if_pos h

theorem Settled.answer (h : f.Settled) (c : Call) : (c.answer f).2.Settled := by
  cases c with
  | next stem => exact h.next stem
  | hinted stem hint =>
    by_cases htaken : stem ++ "_" ++ hint ∈ f.used
    · simp only [Call.answer, hinted_of_used htaken]
      exact h.next _
    · simp only [Call.answer, hinted_of_free htaken]
      exact h.give _

theorem Settled.lawful (h : f.Settled) : f.Lawful where
  settled := h
  next_eq := h.next_eq
  hinted_of_free stem hint hfree := by rw [NameSupply.hinted_of_free hfree]; rfl
  hinted_of_used stem hint htaken := NameSupply.hinted_of_used htaken
  used_eq c := (c.gives f).used_eq

/-! ### A run of calls -/

theorem settled_ofUsed (used : NameSet) : (ofUsed used).Settled := by
  intro stem j hj hle
  have zero : (ofUsed used).lastNumber stem = 0 := rfl
  omega

theorem Settled.run (h : f.Settled) (cs : List Call) : (run cs f).2.Settled := by
  induction cs generalizing f with
  | nil => exact h
  | cons c cs ih => exact ih (h.answer c)

theorem run_append (cs ds : List Call) (f : NameSupply) :
    run (cs ++ ds) f = ((run cs f).1 ++ (run ds (run cs f).2).1, (run ds (run cs f).2).2) := by
  induction cs generalizing f with
  | nil => rfl
  | cons c cs ih => simp only [List.cons_append, run, ih]

theorem mem_used_run {cs : List Call} {name : String} :
    name ∈ (run cs f).2.used ↔ name ∈ f.used ∨ name ∈ (run cs f).1 := by
  induction cs generalizing f with
  | nil => simp [run]
  | cons c cs ih =>
    simp only [run, ih, mem_used_answer, List.mem_cons]
    exact or_assoc.trans or_left_comm

/-- A run hands out names that were not in use. -/
theorem not_mem_used_of_mem_run {cs : List Call} {name : String} (h : name ∈ (run cs f).1) :
    name ∉ f.used := by
  induction cs generalizing f with
  | nil => exact absurd h List.not_mem_nil
  | cons c cs ih =>
    rcases List.mem_cons.1 h with rfl | h
    · exact (c.gives f).not_mem
    · exact fun hf => ih h (mem_used_answer.2 (Or.inr hf))

/-- A name that is handed out is the answer to some call. -/
theorem exists_answer_of_mem_run {cs : List Call} {name : String} (h : name ∈ (run cs f).1) :
    ∃ c ∈ cs, ∃ f', name = (c.answer f').1 := by
  induction cs generalizing f with
  | nil => cases h
  | cons c cs ih =>
    rcases List.mem_cons.1 h with rfl | h
    · exact ⟨c, List.mem_cons_self, f, rfl⟩
    · obtain ⟨d, hd, answered⟩ := ih h
      exact ⟨d, List.mem_cons_of_mem c hd, answered⟩

/-- No name is handed out twice. -/
theorem nodup_run (cs : List Call) (f : NameSupply) : (run cs f).1.Nodup := by
  induction cs generalizing f with
  | nil => exact List.nodup_nil
  | cons c cs ih =>
    refine List.nodup_cons.2 ⟨fun h => ?_, ih _⟩
    exact not_mem_used_of_mem_run h (mem_used_answer.2 (Or.inl rfl))

theorem allocated_run (cs : List Call) (f : NameSupply) :
    (run cs f).2.allocated = f.allocated ++ (run cs f).1 := by
  induction cs generalizing f with
  | nil => simp [run]
  | cons c cs ih =>
    have first : (c.answer f).2.allocated = f.allocated ++ [(c.answer f).1] := by
      cases c with
      | next stem => rfl
      | hinted stem hint =>
        simp only [Call.answer, hinted]
        split <;> rfl
    simp [run, ih, first]

/-! ### The calls of the passes -/

/-- The calls that a chain for a right-hand side makes, one for each link. -/
def chainCalls (r : Rhs) : List Call := List.replicate (r.length - 2) (.next "X")

def preterminalCall (a : Symbol) : Call := .hinted "T" a.name

/-- What a supply is used for: a call, or a pass over some grammar. -/
inductive Use where
  | call (c : Call)
  | separateTerminals (g : Grammar)
  | splitLong (g : Grammar)
  | toChomsky (g : Grammar)

/-- The supply after a use. -/
def Use.perform (f : NameSupply) : Use → NameSupply
  | call c => (c.answer f).2
  | separateTerminals g => (g.separateTerminals f).2
  | splitLong g => (g.splitLong f).2
  | toChomsky g => (g.toChomsky f).2

/-- The calls that a use makes, in order. -/
def Use.calls (f : NameSupply) : Use → List Call
  | call c => [c]
  | separateTerminals g => g.longTerminals.map preterminalCall
  | splitLong g => g.rules.flatMap fun r => chainCalls r.rhs
  | toChomsky g => g.longTerminals.map preterminalCall ++
      (g.separateTerminals f).1.rules.flatMap fun r => chainCalls r.rhs

def performAll : List Use → NameSupply → NameSupply
  | [], f => f
  | u :: us, f => performAll us (u.perform f)

def allCalls : List Use → NameSupply → List Call
  | [], _ => []
  | u :: us, f => u.calls f ++ allCalls us (u.perform f)

/-- The preterminals are the names handed out for the hints, in order. -/
theorem allocatePreterminals_eq_run (as : List Symbol) (f : NameSupply) :
    allocatePreterminals as f =
      (as.zip ((run (as.map preterminalCall) f).1.map .nonterminal),
        (run (as.map preterminalCall) f).2) := by
  induction as generalizing f with
  | nil => rfl
  | cons a as ih =>
    have step : allocatePreterminals (a :: as) f =
        ((a, .nonterminal (f.hinted "T" a.name).1) ::
            (allocatePreterminals as (f.hinted "T" a.name).2).1,
          (allocatePreterminals as (f.hinted "T" a.name).2).2) := rfl
    rw [step, ih]
    rfl

theorem chainCalls_cons (s t u : Symbol) (rest : Rhs) :
    chainCalls (s :: t :: u :: rest) = .next "X" :: chainCalls (t :: u :: rest) := rfl

theorem chainCalls_of_length_le {r : Rhs} (h : r.length ≤ 2) : chainCalls r = [] := by
  simp [chainCalls, h]

end NameSupply

open NameSupply

namespace Grammar

variable {f : NameSupply}

theorem length_le_two {r : Rhs} (short : ∀ x y z rest, r = x :: y :: z :: rest → False) :
    r.length ≤ 2 := by
  rcases r with _ | ⟨x, _ | ⟨y, _ | ⟨z, rest⟩⟩⟩
  · exact Nat.zero_le 2
  · exact Nat.le_succ 1
  · exact Nat.le_refl 2
  · exact absurd rfl (short x y z rest)

theorem snd_splitRule (A : Symbol) (r : Rhs) (f : NameSupply) :
    (splitRule A r f).2 = (run (chainCalls r) f).2 := by
  fun_induction splitRule A r f with
  | case1 A s t u rest f name f' hnext chain f'' hchain ih =>
    rw [hchain] at ih
    rw [chainCalls_cons]
    simp only [run, Call.answer, hnext]
    exact ih
  | case2 A r f short =>
    rw [chainCalls_of_length_le (length_le_two short)]
    rfl

theorem snd_splitRules (rs : List Rule) (f : NameSupply) :
    (splitRules rs f).2 = (run (rs.flatMap fun r => chainCalls r.rhs) f).2 := by
  induction rs generalizing f with
  | nil => rfl
  | cons r rs ih =>
    have step : (splitRules (r :: rs) f).2 =
        (splitRules rs (splitRule r.lhs r.rhs f).2).2 := rfl
    rw [step, ih, snd_splitRule, List.flatMap_cons, run_append]

theorem snd_separateTerminals (g : Grammar) (f : NameSupply) :
    (g.separateTerminals f).2 = (run (g.longTerminals.map preterminalCall) f).2 := by
  have step : (g.separateTerminals f).2 = (allocatePreterminals g.longTerminals f).2 := rfl
  rw [step, allocatePreterminals_eq_run]

theorem snd_splitLong (g : Grammar) (f : NameSupply) :
    (g.splitLong f).2 = (run (g.rules.flatMap fun r => chainCalls r.rhs) f).2 := by
  have step : (g.splitLong f).2 = (splitRules g.rules f).2 := rfl
  rw [step, snd_splitRules]

end Grammar

namespace NameSupply

theorem Use.perform_eq_run (u : Use) (f : NameSupply) : u.perform f = (run (u.calls f) f).2 := by
  cases u with
  | call c => rfl
  | separateTerminals g =>
    simp only [perform, calls, Grammar.snd_separateTerminals]
  | splitLong g =>
    simp only [perform, calls, Grammar.snd_splitLong]
  | toChomsky g =>
    have step : (g.toChomsky f).2 =
        ((g.separateTerminals f).1.splitLong (g.separateTerminals f).2).2 := rfl
    simp only [perform, calls, step, Grammar.snd_splitLong, run_append,
      ← Grammar.snd_separateTerminals]

/-- A history of uses is a run of calls. -/
theorem performAll_eq_run (us : List Use) (f : NameSupply) :
    performAll us f = (run (allCalls us f) f).2 := by
  induction us generalizing f with
  | nil => rfl
  | cons u us ih =>
    simp only [performAll, allCalls, run_append]
    rw [ih, u.perform_eq_run]

/-! ### The law -/

/-- A history of uses, from a supply with the names `used`, goes through a run of calls.  Before
    each call and after the last one the supply is lawful, and no name is handed out twice or was
    in use at the start. -/
theorem performAll_lawful (used : NameSet) (us : List Use) :
    let calls := allCalls us (ofUsed used)
    let names := (run calls (ofUsed used)).1
    performAll us (ofUsed used) = (run calls (ofUsed used)).2 ∧
      (performAll us (ofUsed used)).allocated = names ∧
      (∀ before after, calls = before ++ after → (run before (ofUsed used)).2.Lawful) ∧
      names.Nodup ∧ (∀ name ∈ names, name ∉ used) ∧
      ∀ name, name ∈ (performAll us (ofUsed used)).used ↔ name ∈ used ∨ name ∈ names := by
  intro calls names
  have whole : performAll us (ofUsed used) = (run calls (ofUsed used)).2 :=
    performAll_eq_run us (ofUsed used)
  refine ⟨whole, ?_, fun before after _ => ?_, nodup_run calls _, ?_, ?_⟩
  · rw [whole, allocated_run]
    rfl
  · exact ((settled_ofUsed used).run before).lawful
  · exact fun name hname => not_mem_used_of_mem_run hname
  · intro name
    rw [whole]
    exact mem_used_run

/-- Stems that overlap: the hint and the numbers of `T_a` meet in `T_a1`. -/
example : (run [.hinted "T" "a", .hinted "T" "a1", .next "T_a", .hinted "T" "a"]
    (ofUsed (.ofList ["T_a"]))).1 = ["T_a1", "T_a11", "T_a2", "T_a3"] := by decide

end NameSupply

end ContextFree
