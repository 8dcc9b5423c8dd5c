import Mathlib.Data.List.Nodup

/-!
A list of items with distinct keys and a limited length, oldest first. An item
of a known key takes the place of the one that was there, without getting
younger; one of a new key comes last, and if the list is full the oldest item
goes.
-/
namespace Fifo

section
variable {α κ : Type*} [DecidableEq κ] (key : α → κ)

/-- The item of a key. -/
def find (sought : κ) (items : List α) : Option α := items.find? fun item => key item = sought

/-- An item in the place of the one with its key. -/
def replace (item : α) (items : List α) : List α := items.map fun other => if key other = key item then item else other

/-- An item of a new key last, with the oldest one gone from a full list. -/
def append (limit : Nat) (item : α) (items : List α) : List α :=
  (if limit ≤ items.length then items.drop 1 else items) ++ [item]

def put (limit : Nat) (item : α) (items : List α) : List α :=
  if key item ∈ items.map key then replace key item items else append limit item items

def remove (gone : κ) (items : List α) : List α := items.filter fun item => key item ≠ gone

variable {key} {item : α} {items : List α} {sought gone : κ} {limit : Nat}

theorem find_eq_none : find key sought items = none ↔ sought ∉ items.map key := by
  simp [find]

theorem find_of_mem (distinct : (items.map key).Nodup) (member : item ∈ items) :
    find key (key item) items = some item := by
  induction items with
  | nil => cases member
  | cons first rest ih =>
    rw [List.map_cons,List.nodup_cons] at distinct
    rcases List.mem_cons.mp member with rfl | later
    · simp [find]
    · have other : ¬ key first = key item := fun same => distinct.1 (same ▸ List.mem_map_of_mem later)
      rw [find,List.find?_cons_of_neg (by simpa using other)]
      exact ih distinct.2 later

theorem find_some (found : find key sought items = some item) : item ∈ items ∧ key item = sought :=
  ⟨List.mem_of_find?_eq_some found,by simpa using List.find?_some found⟩

/-! ### Replacing -/

@[simp] theorem map_replace (item : α) (items : List α) : (replace key item items).map key = items.map key := by
  rw [replace,List.map_map]
  refine List.map_congr_left fun other _ => ?_
  dsimp only [Function.comp]
  split
  · rename_i same
    exact same.symm
  · rfl

theorem find_replace_self (there : key item ∈ items.map key) :
    find key (key item) (replace key item items) = some item := by
  induction items with
  | nil => cases there
  | cons first rest ih =>
    by_cases same : key first = key item
    · simp [find,replace,same]
    · have later : key item ∈ rest.map key := by
        rcases List.mem_cons.mp there with here | later
        · exact absurd here.symm same
        · exact later
      have := ih later
      simp only [find,replace,List.map_cons] at this ⊢
      rw [if_neg same,List.find?_cons_of_neg (by simpa using same),this]

theorem find_replace_ne (other : sought ≠ key item) :
    find key sought (replace key item items) = find key sought items := by
  induction items with
  | nil => rfl
  | cons first rest ih =>
    simp only [find,replace,List.map_cons] at ih ⊢
    by_cases same : key first = key item
    · rw [if_pos same,List.find?_cons_of_neg (by simpa using other.symm),ih,
        List.find?_cons_of_neg (by simpa [same] using other.symm)]
    · rw [if_neg same,List.find?_cons,List.find?_cons,ih]

/-! ### Appending and removing -/

theorem find_concat (new : key item ∉ items.map key) (sought : κ) :
    find key sought (items ++ [item]) = if sought = key item then some item else find key sought items := by
  rw [find,List.find?_append]
  by_cases same : sought = key item
  · subst same
    have absent : items.find? (fun other => decide (key other = key item)) = none := find_eq_none.mpr new
    simp [absent]
  · simp [find,same,Ne.symm same]

theorem find_tail {first : α} (distinct : ((first :: items).map key).Nodup) (sought : κ) :
    find key sought items = if sought = key first then none else find key sought (first :: items) := by
  rw [List.map_cons,List.nodup_cons] at distinct
  by_cases same : sought = key first
  · rw [if_pos same,same]
    exact find_eq_none.mpr distinct.1
  · rw [if_neg same,find,find,List.find?_cons_of_neg (by simpa using Ne.symm same)]

theorem remove_of_notMem (absent : gone ∉ items.map key) : remove key gone items = items := by
  refine List.filter_eq_self.mpr fun item member => ?_
  simpa using fun same => absent (List.mem_map.mpr ⟨item,member,same⟩)

theorem map_remove (gone : κ) (items : List α) :
    (remove key gone items).map key = (items.map key).filter (· ≠ gone) := by
  rw [remove,List.filter_map]
  rfl

theorem find_remove (sought : κ) :
    find key sought (remove key gone items) = if sought = gone then none else find key sought items := by
  induction items with
  | nil => simp [find,remove]
  | cons first rest ih =>
    simp only [find,remove] at ih ⊢
    by_cases out : key first = gone
    · rw [List.filter_cons_of_neg (by simpa using out),ih]
      by_cases same : sought = gone
      · simp [same]
      · rw [if_neg same,if_neg same,List.find?_cons_of_neg (by simpa [out] using Ne.symm same)]
    · rw [List.filter_cons_of_pos (by simpa using out),List.find?_cons,ih,List.find?_cons]
      by_cases here : key first = sought
      · have : ¬ sought = gone := fun same => out (here.trans same)
        simp [here,this]
      · simp [here]

/-! ### Distinct keys and a limited length -/

theorem nodup_remove (gone : κ) (distinct : (items.map key).Nodup) : ((remove key gone items).map key).Nodup :=
  (List.filter_sublist.map key).nodup distinct

theorem length_put (positive : 0 < limit) (item : α) (short : items.length ≤ limit) :
    (put key limit item items).length ≤ limit := by
  rw [put]
  split
  · rwa [replace,List.length_map]
  · rw [append,List.length_append,List.length_singleton]
    split
    · rw [List.length_drop]
      omega
    · omega

end
end Fifo
