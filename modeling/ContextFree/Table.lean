/-
  ContextFree/Table.lean
  ======================
  **Tables**: finite maps that keep the order in which their keys were first set.

  A table is a list of entries with a proof that no key is in it twice.  `set`
  gives an existing key its new value in place and puts a new key last, so the
  keys of `t.set k v` are the keys of `t` with `k` added as to a list without
  repeats (`keys_set`).  A table is read through `get?`, and each operation says
  what it does to that view.
-/
import ContextFree.Distinct

namespace ContextFree

/-- A finite map with its keys in the order in which they were first set. -/
structure Table (κ β : Type) where
  entries : List (κ × β)
  nodup_keys : (entries.map Prod.fst).Nodup

namespace Table

variable {κ β γ : Type}

def empty : Table κ β := ⟨[], List.nodup_nil⟩

/-- A table is its list of entries. -/
theorem eq_of_entries_eq {t u : Table κ β} (same : t.entries = u.entries) : t = u := by
  obtain ⟨es, _⟩ := t
  obtain ⟨es', _⟩ := u
  cases same
  rfl

instance : EmptyCollection (Table κ β) := ⟨empty⟩

instance : Inhabited (Table κ β) := ⟨empty⟩

/-- The keys in the order in which they were first set. -/
def keys (t : Table κ β) : List κ := t.entries.map Prod.fst

def size (t : Table κ β) : Nat := t.entries.length

/-- Replaces every value; keys and their order stay. -/
def mapValues (f : κ → β → γ) (t : Table κ β) : Table κ γ :=
  ⟨t.entries.map fun e => (e.1, f e.1 e.2), by
    have h : (t.entries.map fun e => (e.1, f e.1 e.2)).map Prod.fst = t.entries.map Prod.fst := by
      simp [List.map_map, Function.comp_def]
    rw [h]
    exact t.nodup_keys⟩

/-- Keeps the entries whose key satisfies `p`. -/
def filterKeys (p : κ → Bool) (t : Table κ β) : Table κ β :=
  ⟨t.entries.filter fun e => p e.1, t.nodup_keys.sublist (List.filter_sublist.map Prod.fst)⟩

@[simp] theorem keys_mapValues (f : κ → β → γ) (t : Table κ β) : (t.mapValues f).keys = t.keys := by
  simp [keys, mapValues, List.map_map, Function.comp_def]

theorem mem_keys_filterKeys {p : κ → Bool} {t : Table κ β} {k : κ} :
    k ∈ (t.filterKeys p).keys ↔ k ∈ t.keys ∧ p k = true := by
  simp only [keys, filterKeys, List.mem_map, List.mem_filter]
  constructor
  · rintro ⟨e, ⟨he, hp⟩, rfl⟩
    exact ⟨⟨e, he, rfl⟩, hp⟩
  · rintro ⟨⟨e, he, rfl⟩, hp⟩
    exact ⟨e, ⟨he, hp⟩, rfl⟩

/-- Keeping the keys that satisfy `p` keeps everything if all of them do. -/
theorem filterKeys_eq_self {p : κ → Bool} {t : Table κ β} (h : ∀ k ∈ t.keys, p k = true) :
    t.filterKeys p = t := by
  apply eq_of_entries_eq
  apply List.filter_eq_self.2
  intro e he
  exact h e.1 (List.mem_map_of_mem he)

/-- Replacing every value by itself changes nothing. -/
theorem mapValues_eq_self {f : κ → β → β} {t : Table κ β}
    (h : ∀ e ∈ t.entries, f e.1 e.2 = e.2) : t.mapValues f = t := by
  apply eq_of_entries_eq
  have same : ∀ e ∈ t.entries, (e.1, f e.1 e.2) = id e := by
    intro e he
    rw [h e he]
    rfl
  exact (List.map_congr_left same).trans (List.map_id t.entries)

variable [DecidableEq κ]

/-! ### Lists of entries -/

/-- The value that a list of entries gives to a key. -/
def lookup (k : κ) : List (κ × β) → Option β
  | [] => none
  | (j, v) :: es => if j = k then some v else lookup k es

/-- Gives `k` the value `v` in place, or at the end when `k` is new. -/
def replace (k : κ) (v : β) : List (κ × β) → List (κ × β)
  | [] => [(k, v)]
  | (j, u) :: es => if j = k then (k, v) :: es else (j, u) :: replace k v es

theorem map_fst_replace (k : κ) (v : β) (es : List (κ × β)) :
    (replace k v es).map Prod.fst = Distinct.insert (es.map Prod.fst) k := by
  induction es with
  | nil => simp [replace, Distinct.insert]
  | cons e es ih =>
    obtain ⟨j, u⟩ := e
    by_cases h : j = k
    · subst h
      simp [replace, Distinct.insert]
    · have h' : ¬k = j := fun e => h e.symm
      simp only [replace, if_neg h, List.map_cons, ih, Distinct.insert, List.mem_cons, h', false_or]
      split <;> simp

theorem lookup_replace (k : κ) (v : β) (es : List (κ × β)) (a : κ) :
    lookup a (replace k v es) = if k = a then some v else lookup a es := by
  induction es with
  | nil => simp [replace, lookup]
  | cons e es ih =>
    obtain ⟨j, u⟩ := e
    by_cases h : j = k
    · subst h
      by_cases ha : j = a <;> simp [replace, lookup, ha]
    · by_cases ha : j = a
      · subst ha
        have hk : ¬k = j := fun e => h e.symm
        simp [replace, lookup, h, hk]
      · simp [replace, lookup, h, ha, ih]

theorem lookup_eq_none_iff {k : κ} {es : List (κ × β)} :
    lookup k es = none ↔ k ∉ es.map Prod.fst := by
  induction es with
  | nil => simp [lookup]
  | cons e es ih =>
    obtain ⟨j, u⟩ := e
    by_cases h : j = k
    · simp [lookup, h]
    · have h' : ¬k = j := fun e => h e.symm
      simp only [lookup, if_neg h, ih, List.map_cons, List.mem_cons, h', false_or]

theorem lookup_eq_some_iff {k : κ} {v : β} {es : List (κ × β)} (h : (es.map Prod.fst).Nodup) :
    lookup k es = some v ↔ (k, v) ∈ es := by
  induction es with
  | nil => simp [lookup]
  | cons e es ih =>
    obtain ⟨j, u⟩ := e
    obtain ⟨hj, hes⟩ := List.nodup_cons.1 h
    by_cases hjk : j = k
    · subst hjk
      have hnot : (j, v) ∉ es := fun hm => hj (List.mem_map.2 ⟨(j, v), hm, rfl⟩)
      simp [lookup, hnot, eq_comm]
    · have hkj : ¬k = j := fun e => hjk e.symm
      simp [lookup, hjk, hkj, ih hes]

/-- Where no key is repeated, the order of the entries does not matter. -/
theorem lookup_eq_of_perm {es ds : List (κ × β)} (h : es.Perm ds) (nodup : (ds.map Prod.fst).Nodup)
    (k : κ) : lookup k es = lookup k ds := by
  have nodup' : (es.map Prod.fst).Nodup := (h.map Prod.fst).nodup_iff.2 nodup
  apply Option.ext
  intro v
  rw [lookup_eq_some_iff nodup', lookup_eq_some_iff nodup]
  exact h.mem_iff

theorem lookup_map (f : κ → β → γ) (es : List (κ × β)) (k : κ) :
    lookup k (es.map fun e => (e.1, f e.1 e.2)) = (lookup k es).map (f k) := by
  induction es with
  | nil => rfl
  | cons e es ih =>
    obtain ⟨j, u⟩ := e
    by_cases h : j = k
    · subst h
      simp [lookup]
    · simp [lookup, h, ih]

theorem lookup_filter (p : κ → Bool) (es : List (κ × β)) (k : κ) :
    lookup k (es.filter fun e => p e.1) = if p k then lookup k es else none := by
  induction es with
  | nil => simp [lookup]
  | cons e es ih =>
    obtain ⟨j, u⟩ := e
    by_cases h : j = k
    · subst h
      by_cases hp : p j <;> simp [lookup, hp, ih]
    · by_cases hp : p j <;> simp [lookup, hp, h, ih]

/-! ### The view -/

def get? (t : Table κ β) (k : κ) : Option β := lookup k t.entries

/-- Gives `k` the value `v`: in place if `k` is a key, else as the last entry. -/
def set (t : Table κ β) (k : κ) (v : β) : Table κ β :=
  ⟨replace k v t.entries, by
    rw [map_fst_replace]
    exact Distinct.nodup_insert t.nodup_keys k⟩

/-- Sets the entries of a list one after the other: a repeated key keeps its first place and gets
    its last value. -/
def ofList (es : List (κ × β)) : Table κ β := es.foldl (fun t e => t.set e.1 e.2) empty

@[simp] theorem get?_empty (k : κ) : (empty : Table κ β).get? k = none := rfl

theorem keys_set (t : Table κ β) (k : κ) (v : β) :
    (t.set k v).keys = Distinct.insert t.keys k := map_fst_replace k v t.entries

theorem get?_set (t : Table κ β) (k : κ) (v : β) (a : κ) :
    (t.set k v).get? a = if k = a then some v else t.get? a := lookup_replace k v t.entries a

theorem get?_eq_none_iff {t : Table κ β} {k : κ} : t.get? k = none ↔ k ∉ t.keys :=
  lookup_eq_none_iff

theorem get?_eq_some_iff {t : Table κ β} {k : κ} {v : β} :
    t.get? k = some v ↔ (k, v) ∈ t.entries := lookup_eq_some_iff t.nodup_keys

theorem get?_mapValues (f : κ → β → γ) (t : Table κ β) (k : κ) :
    (t.mapValues f).get? k = (t.get? k).map (f k) := lookup_map f t.entries k

theorem get?_eq_of_perm {t u : Table κ β} (h : t.entries.Perm u.entries) (k : κ) :
    t.get? k = u.get? k := lookup_eq_of_perm h u.nodup_keys k

theorem get?_filterKeys (p : κ → Bool) (t : Table κ β) (k : κ) :
    (t.filterKeys p).get? k = if p k then t.get? k else none := lookup_filter p t.entries k

/-! ### Tables from lists -/

theorem keys_foldl_set (es : List (κ × β)) (t : Table κ β) :
    (es.foldl (fun t e => t.set e.1 e.2) t).keys = Distinct.append t.keys (es.map Prod.fst) := by
  induction es generalizing t with
  | nil => rfl
  | cons e es ih => rw [List.foldl_cons, ih, keys_set, List.map_cons, Distinct.append_cons]

theorem keys_ofList (es : List (κ × β)) :
    (ofList es).keys = Distinct.ofList (es.map Prod.fst) := keys_foldl_set es empty

theorem mem_entries_foldl_set {es : List (κ × β)} {e : κ × β} {t : Table κ β}
    (he : e ∈ (es.foldl (fun t e => t.set e.1 e.2) t).entries) : e ∈ t.entries ∨ e ∈ es := by
  induction es generalizing t with
  | nil => exact Or.inl he
  | cons d es ih =>
    rcases ih he with ht | hes
    · rw [← get?_eq_some_iff, get?_set] at ht
      split at ht
      · rename_i hk
        exact Or.inr (List.mem_cons.2 (Or.inl (Prod.ext hk.symm (Option.some.inj ht).symm)))
      · exact Or.inl (get?_eq_some_iff.1 ht)
    · exact Or.inr (List.mem_cons_of_mem d hes)

theorem mem_of_mem_entries_ofList {es : List (κ × β)} {e : κ × β} (he : e ∈ (ofList es).entries) :
    e ∈ es := (mem_entries_foldl_set he).resolve_left List.not_mem_nil

theorem replace_of_not_mem {k : κ} {es : List (κ × β)} (h : k ∉ es.map Prod.fst) (v : β) :
    replace k v es = es ++ [(k, v)] := by
  induction es with
  | nil => rfl
  | cons e es ih =>
    obtain ⟨hk, hes⟩ : k ≠ e.1 ∧ k ∉ es.map Prod.fst := by simpa using h
    unfold replace
    rw [if_neg (Ne.symm hk), ih hes]
    rfl

theorem entries_foldl_set {es : List (κ × β)} {t : Table κ β}
    (h : ((t.entries ++ es).map Prod.fst).Nodup) :
    (es.foldl (fun t e => t.set e.1 e.2) t).entries = t.entries ++ es := by
  induction es generalizing t with
  | nil => simp
  | cons e es ih =>
    have split : t.entries ++ e :: es = (t.entries ++ [e]) ++ es := by simp
    rw [split] at h
    have fresh : e.1 ∉ t.entries.map Prod.fst := by
      rw [List.append_assoc, List.map_append, List.nodup_append] at h
      exact fun hmem => h.2.2 e.1 hmem e.1 (by simp) rfl
    have set : (t.set e.1 e.2).entries = t.entries ++ [e] := replace_of_not_mem fresh e.2
    rw [List.foldl_cons, ih (by rwa [set]), set, split]

/-- Entries with different keys are those of the table made from them. -/
theorem entries_ofList {es : List (κ × β)} (h : (es.map Prod.fst).Nodup) :
    (ofList es).entries = es := entries_foldl_set h

end Table

end ContextFree
