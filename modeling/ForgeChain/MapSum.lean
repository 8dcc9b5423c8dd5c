import Mathlib.Data.Finmap
import Mathlib.Algebra.BigOperators.Group.Finset.Basic

/-!
Sums over the values of a finite map. A key without an entry counts as an entry
of weight 0, so two maps that give every key the same weight have the same sum.
-/
namespace MapSum

section
variable {K V : Type*} [DecidableEq K] (weight : V → Nat)

/-- The weight at a key, 0 where there is no entry. -/
def weightAt (map : Finmap fun _ : K => V) (key : K) : Nat := ((map.lookup key).map weight).getD 0

/-- The weights of all entries. -/
def sum (map : Finmap fun _ : K => V) : Nat := (map.entries.map fun entry => weight entry.2).sum

theorem sum_eq (map : Finmap fun _ : K => V) : sum weight map = ∑ key ∈ map.keys, weightAt weight map key := by
  have keys : map.keys.val = map.entries.map Sigma.fst := rfl
  rw [sum,Finset.sum,keys,Multiset.map_map]
  congr 1
  refine Multiset.map_congr rfl fun entry member => ?_
  have found : map.lookup entry.1 = some entry.2 := Finmap.mem_lookup_iff.mpr member
  simp [weightAt,found]

theorem weightAt_eq_zero {map : Finmap fun _ : K => V} {key : K} (absent : key ∉ map.keys) :
    weightAt weight map key = 0 := by
  rw [Finmap.mem_keys] at absent
  rw [weightAt,Finmap.lookup_eq_none.mpr absent]
  rfl

/-- The sum may run over more keys than the map has. -/
theorem sum_eq_of_subset {map : Finmap fun _ : K => V} {keys : Finset K} (subset : map.keys ⊆ keys) :
    sum weight map = ∑ key ∈ keys, weightAt weight map key := by
  rw [sum_eq]
  exact Finset.sum_subset subset fun key _ absent => weightAt_eq_zero weight absent

theorem sum_congr {left right : Finmap fun _ : K => V}
    (same : ∀ key, weightAt weight left key = weightAt weight right key) :
    sum weight left = sum weight right := by
  have fromLeft : left.keys ⊆ left.keys ∪ right.keys := Finset.subset_union_left
  have fromRight : right.keys ⊆ left.keys ∪ right.keys := Finset.subset_union_right
  rw [sum_eq_of_subset weight fromLeft,sum_eq_of_subset weight fromRight]
  exact Finset.sum_congr rfl fun key _ => same key

/-- Setting an entry exchanges its weight. -/
theorem sum_insert (map : Finmap fun _ : K => V) (key : K) (value : V) :
    sum weight (map.insert key value) + weightAt weight map key = sum weight map + weight value := by
  have inserted : (map.insert key value).keys ⊆ insert key map.keys := by
    intro other member
    rw [Finmap.mem_keys,Finmap.mem_insert] at member
    rw [Finset.mem_insert,Finmap.mem_keys]
    exact member
  have here : weightAt weight (map.insert key value) key = weight value := by simp [weightAt]
  have elsewhere : ∑ other ∈ map.keys.erase key, weightAt weight (map.insert key value) other =
      ∑ other ∈ map.keys.erase key, weightAt weight map other := by
    refine Finset.sum_congr rfl fun other member => ?_
    simp [weightAt,Finmap.lookup_insert_of_ne _ (Finset.ne_of_mem_erase member)]
  have split : insert key map.keys = insert key (map.keys.erase key) := by
    ext other
    by_cases same : other = key <;> simp [same]
  rw [sum_eq_of_subset weight inserted,sum_eq_of_subset weight (Finset.subset_insert key map.keys),split,
    Finset.sum_insert (Finset.notMem_erase key map.keys),Finset.sum_insert (Finset.notMem_erase key map.keys),here,
    elsewhere]
  omega

end
end MapSum
