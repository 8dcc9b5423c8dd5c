import Mathlib.Data.List.Pairwise
import Mathlib.Data.List.TakeWhile
import Mathlib.Order.Lattice

/-!
The best items of a stream, by a key. Items of one key keep the order they came
in (`Ranking`). A list of limited length that lets its last item go for a better
one always holds the beginning of the ranking of all that came (`offer_take`).
-/
namespace TopK

section
variable {α κ : Type*} [LinearOrder κ] (key : α → κ)

/-- Items by falling key, those of one key in the order they came in. -/
structure Ranking (items ranked : List α) : Prop where
  falling : ranked.Pairwise fun left right => key right ≤ key left
  ties : ∀ value, ranked.filter (fun item => key item = value) = items.filter fun item => key item = value

/-- An item behind everything whose key is not smaller. -/
def place (item : α) (ranked : List α) : List α :=
  ranked.takeWhile (fun other => key item ≤ key other) ++ item :: ranked.dropWhile fun other => key item ≤ key other

/-- An item for a list of limited length: if that is full, its last item makes
    room for one of greater key. -/
def offer (limit : Nat) (item : α) (kept : List α) : List α :=
  if kept.length < limit then place key item kept
  else
    match kept.getLast? with
    | none => kept
    | some last => if key last < key item then place key item kept.dropLast else kept

variable {key} {item : α} {items ranked : List α} {limit : Nat}

/-! ### Placing an item -/

theorem place_split {above below : List α} (high : ∀ other ∈ above, key item ≤ key other)
    (low : ∀ other ∈ below, key other < key item) : place key item (above ++ below) = above ++ item :: below := by
  have all : ∀ other ∈ above, decide (key item ≤ key other) = true := fun other member =>
    decide_eq_true (high other member)
  rw [place,List.takeWhile_append_of_pos all,List.dropWhile_append_of_pos all]
  cases below with
  | nil => simp
  | cons first rest =>
    have ends : ¬ key item ≤ key first := not_le_of_gt (low first (by simp))
    simp [ends]

/-- A list by falling key has the items above a new one first. -/
theorem exists_split (item : α) (falling : ranked.Pairwise fun left right => key right ≤ key left) :
    ∃ above below, ranked = above ++ below ∧ (∀ other ∈ above, key item ≤ key other) ∧
      ∀ other ∈ below, key other < key item := by
  induction ranked with
  | nil => exact ⟨[],[],rfl,by simp,by simp⟩
  | cons first rest ih =>
    obtain ⟨after,falling⟩ := List.pairwise_cons.mp falling
    rcases le_or_gt (key item) (key first) with high | low
    · obtain ⟨above,below,rfl,highs,lows⟩ := ih falling
      exact ⟨first :: above,below,rfl,by simpa using ⟨high,highs⟩,lows⟩
    · exact ⟨[],first :: rest,rfl,by simp,by simpa using ⟨low,fun other member => (after other member).trans_lt low⟩⟩

theorem place_falling (item : α) (falling : ranked.Pairwise fun left right => key right ≤ key left) :
    (place key item ranked).Pairwise fun left right => key right ≤ key left := by
  obtain ⟨above,below,rfl,highs,lows⟩ := exists_split item falling
  rw [place_split highs lows]
  obtain ⟨first,last,across⟩ := List.pairwise_append.mp falling
  refine List.pairwise_append.mpr ⟨first,List.pairwise_cons.mpr ⟨fun other member => (lows other member).le,last⟩,?_⟩
  intro left among right member
  rcases List.mem_cons.mp member with rfl | below
  · exact highs left among
  · exact across left among right below

theorem Ranking.nil : Ranking key [] [] := ⟨.nil,fun _ => rfl⟩

/-- Placing the item that comes next gives the ranking with it. -/
theorem Ranking.place (ranking : Ranking key items ranked) (item : α) :
    Ranking key (items ++ [item]) (TopK.place key item ranked) := by
  refine ⟨place_falling item ranking.falling,fun value => ?_⟩
  obtain ⟨above,below,rfl,highs,lows⟩ := exists_split item ranking.falling
  rw [place_split highs lows,List.filter_append,List.filter_append,← ranking.ties value,List.filter_append]
  by_cases same : key item = value
  · -- No item below has the key, so the new one is the last that has it.
    have none : below.filter (fun other => key other = value) = [] := by
      rw [List.filter_eq_nil_iff]
      intro other member
      simpa [← same] using (lows other member).ne
    simp [same,none]
  · simp [same]

theorem Ranking.perm [DecidableEq α] (ranking : Ranking key items ranked) : ranked.Perm items := by
  refine List.perm_iff_count.mpr fun item => ?_
  have own : ∀ list : List α, list.count item = (list.filter fun other => key other = key item).count item :=
    fun list => (List.count_filter (by simp)).symm
  rw [own ranked,own items,ranking.ties]

/-! ### A list of limited length -/

theorem offer_of_room (room : ranked.length < limit) : offer key limit item ranked = place key item ranked := by
  rw [offer,if_pos room]

/-- The last item of a full list stays for one whose key is no greater. -/
theorem offer_of_worse {kept : List α} {last : α} (full : limit ≤ (kept ++ [last]).length)
    (worse : key item ≤ key last) :
    offer key limit item (kept ++ [last]) = kept ++ [last] := by
  rw [offer,if_neg (by omega),List.getLast?_concat]
  dsimp only
  rw [if_neg (not_lt_of_ge worse)]

theorem offer_of_better {kept : List α} {last : α} (full : limit ≤ (kept ++ [last]).length)
    (better : key last < key item) :
    offer key limit item (kept ++ [last]) = place key item kept := by
  rw [offer,if_neg (by omega),List.getLast?_concat]
  dsimp only
  rw [if_pos better,List.dropLast_concat]

theorem length_place : (place key item ranked).length = ranked.length + 1 := by
  have parts := congrArg List.length
    (List.takeWhile_append_dropWhile (p := fun other => key item ≤ key other) (l := ranked))
  rw [List.length_append] at parts
  rw [place,List.length_append,List.length_cons]
  omega

/-- What is kept is the beginning of the ranking. -/
theorem offer_take (positive : 0 < limit) (falling : ranked.Pairwise fun left right => key right ≤ key left) :
    offer key limit item (ranked.take limit) = (place key item ranked).take limit := by
  rcases Nat.lt_or_ge ranked.length limit with room | full
  · rw [List.take_of_length_le room.le,offer_of_room room,List.take_of_length_le (by rw [length_place]; omega)]
  obtain ⟨len,rfl⟩ := Nat.exists_eq_add_of_le' positive
  obtain ⟨above,below,rfl,highs,lows⟩ := exists_split item falling
  rw [place_split highs lows,List.take_succ_eq_append_getElem full]
  have length : ((above ++ below).take len ++ [(above ++ below)[len]]).length = len + 1 := by
    rw [← List.take_succ_eq_append_getElem full,List.length_take]
    omega
  rcases Nat.lt_or_ge len above.length with inside | outside
  · -- The last item that is kept is above the new one.
    have last : (above ++ below)[len] ∈ above := by
      rw [List.getElem_append_left inside]
      exact List.getElem_mem _
    rw [offer_of_worse length.ge (highs _ last),← List.take_succ_eq_append_getElem full,
      List.take_append_of_le_length inside,List.take_append_of_le_length inside]
  · have last : (above ++ below)[len] ∈ below := by
      rw [List.getElem_append_right outside]
      exact List.getElem_mem _
    obtain ⟨more,rfl⟩ := Nat.exists_eq_add_of_le outside
    rw [offer_of_better length.ge (lows _ last),List.take_length_add_append,
      place_split highs (fun other member => lows other (List.mem_of_mem_take member)),Nat.add_assoc,
      List.take_length_add_append,List.take_succ_cons]

/-- An item whose key is no greater than that of one that was let go is let go. -/
theorem offer_gone {other : α} (positive : 0 < limit) (falling : ranked.Pairwise fun left right => key right ≤ key left)
    (gone : other ∈ ranked.drop limit) (worse : key item ≤ key other) :
    offer key limit item (ranked.take limit) = ranked.take limit := by
  obtain ⟨len,rfl⟩ := Nat.exists_eq_add_of_le' positive
  have full : len < ranked.length := by
    have := List.length_pos_of_mem gone
    rw [List.length_drop] at this
    omega
  have length : (ranked.take len ++ [ranked[len]]).length = len + 1 := by
    rw [← List.take_succ_eq_append_getElem full,List.length_take]
    omega
  have less : key other ≤ key ranked[len] := by
    have last : ranked[len] ∈ ranked.take (len + 1) := by
      rw [List.take_succ_eq_append_getElem full]
      exact List.mem_append_right _ (List.mem_singleton_self _)
    rw [← List.take_append_drop (len + 1) ranked,List.pairwise_append] at falling
    exact falling.2.2 _ last other gone
  rw [List.take_succ_eq_append_getElem full,offer_of_worse length.ge (worse.trans less)]

end
end TopK
