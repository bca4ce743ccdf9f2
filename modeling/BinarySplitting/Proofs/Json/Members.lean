import Mathlib.Data.String.Basic
import Mathlib.Data.List.Induction
import Mathlib.Data.List.Dedup
import BinarySplitting.Json.Value

/-!
# The members of an object

What an object that is put together member by member contains. Its keys stand in their order, each
once (`sorted_entriesOf`), and the value of a key is that of the last member with the key
(`mem_entriesOf_iff`). Members with distinct keys may be given in any order (`lookup_of_perm`).
-/

namespace BinarySplitting.Json

variable {members entries : List (String × Json)} {key : String} {value : Json}

def keys (members : List (String × Json)) : List String := members.map Prod.fst

/-! ## Looking up -/

theorem lookup_eq (key : String) (members : List (String × Json)) :
    lookup key members = members.lookup key := by
  induction members with
  | nil => rfl
  | cons m rest ih =>
    obtain ⟨k, v⟩ := m
    by_cases h : key = k
    · simp [lookup, h]
    · simp [lookup, List.lookup_cons, beq_eq_false_iff_ne.2 h, h, ih]

theorem lookup_eq_some_iff :
    lookup key members = some value ↔
      ∃ before after, members = before ++ (key, value) :: after ∧ key ∉ keys before := by
  simp only [lookup_eq, List.lookup_eq_some_iff, keys, List.mem_map, bne_iff_ne]
  refine exists_congr fun before => exists_congr fun after => and_congr_right fun _ => ?_
  exact ⟨fun h ⟨m, hm, e⟩ => h m hm e.symm, fun h m hm e => h ⟨m, hm, e.symm⟩⟩

theorem lookup_eq_none_iff : lookup key members = none ↔ key ∉ keys members := by
  simp only [lookup_eq, List.lookup_eq_none_iff, keys, List.mem_map, bne_iff_ne]
  exact ⟨fun h ⟨m, hm, e⟩ => h m hm e.symm, fun h m hm e => h ⟨m, hm, e.symm⟩⟩

theorem lookup_eq_some_iff_mem (h : (keys members).Nodup) :
    lookup key members = some value ↔ (key, value) ∈ members := by
  rw [lookup_eq_some_iff]
  constructor
  · rintro ⟨before, after, rfl, -⟩
    simp
  · intro hmem
    obtain ⟨before, after, rfl⟩ := List.append_of_mem hmem
    refine ⟨before, after, rfl, fun hkey => ?_⟩
    simp only [keys, List.map_append, List.map_cons] at h hkey
    exact (List.nodup_append.1 h).2.2 key hkey key (by simp) rfl

theorem lookup_of_perm {members' : List (String × Json)} (h : (keys members).Nodup)
    (hperm : members.Perm members') : lookup key members = lookup key members' := by
  have h' : (keys members').Nodup := (hperm.map Prod.fst).nodup_iff.1 h
  refine Option.ext fun value => ?_
  rw [lookup_eq_some_iff_mem h, lookup_eq_some_iff_mem h', hperm.mem_iff]

/-! ## Putting together -/

theorem lookup_insert (other : String) :
    lookup other (insert key value members) =
      if other = key then some value else lookup other members := by
  split
  · next h => rw [h, lookup_insert_self]
  · next h => exact lookup_insert_of_ne value h members

theorem mem_keys_insert {other : String} :
    other ∈ keys (insert key value members) ↔ other = key ∨ other ∈ keys members := by
  have h : lookup other (insert key value members) =
      if other = key then some value else lookup other members := lookup_insert other
  by_cases hkey : other = key
  · rw [if_pos hkey] at h
    have hfound : ¬ lookup other (insert key value members) = none := by simp [h]
    simpa [hkey, lookup_eq_none_iff] using hfound
  · rw [if_neg hkey] at h
    rw [← not_iff_not, ← lookup_eq_none_iff, h, lookup_eq_none_iff]
    simp [hkey]

theorem sorted_insert (h : (keys members).Pairwise (· < ·)) :
    (keys (insert key value members)).Pairwise (· < ·) := by
  induction members with
  | nil => simp [insert, keys]
  | cons m rest ih =>
    obtain ⟨k, v⟩ := m
    have hcons := List.pairwise_cons.1 h
    unfold insert
    split
    · next e => subst e; exact h
    · next hne =>
      split
      · next hlt =>
        refine List.pairwise_cons.2 ⟨fun other hother => ?_, h⟩
        rcases List.mem_cons.1 hother with rfl | hrest
        · exact hlt
        · exact hlt.trans (hcons.1 other hrest)
      · next hnot =>
        refine List.pairwise_cons.2 ⟨fun other hother => ?_, ih hcons.2⟩
        rcases mem_keys_insert.1 hother with rfl | hrest
        · exact lt_of_le_of_ne (not_lt.1 hnot) (Ne.symm hne)
        · exact hcons.1 other hrest

/-- The members of an object that is put together, one after another. -/
def entriesOf (members : List (String × Json)) : List (String × Json) :=
  members.foldl (fun ms (key, value) => insert key value ms) []

theorem ofMembers_eq (members : List (String × Json)) :
    ofMembers members = .object (entriesOf members) := rfl

theorem entriesOf_append_singleton (members : List (String × Json)) (m : String × Json) :
    entriesOf (members ++ [m]) = insert m.1 m.2 (entriesOf members) := by
  simp [entriesOf, List.foldl_append]

theorem sorted_entriesOf (members : List (String × Json)) :
    (keys (entriesOf members)).Pairwise (· < ·) := by
  induction members using List.reverseRecOn with
  | nil => exact .nil
  | append_singleton members m ih =>
    rw [entriesOf_append_singleton]
    exact sorted_insert ih

theorem lookup_entriesOf (key : String) (members : List (String × Json)) :
    lookup key (entriesOf members) = lookup key members.reverse := by
  induction members using List.reverseRecOn with
  | nil => rfl
  | append_singleton members m ih =>
    rw [entriesOf_append_singleton, lookup_insert, ih, List.reverse_concat]
    obtain ⟨k, v⟩ := m
    rfl

/-- The members of an object that is put together: each key with the value of the last member that
has it. -/
theorem mem_entriesOf_iff :
    (key, value) ∈ entriesOf members ↔
      ∃ before after, members = before ++ (key, value) :: after ∧ key ∉ keys after := by
  rw [← lookup_eq_some_iff_mem (sorted_entriesOf members).nodup, lookup_entriesOf,
    lookup_eq_some_iff]
  constructor
  · rintro ⟨before, after, h, hkey⟩
    refine ⟨after.reverse, before.reverse, ?_, by simpa [keys] using hkey⟩
    simpa using congrArg List.reverse h
  · rintro ⟨before, after, h, hkey⟩
    exact ⟨after.reverse, before.reverse, by simp [h], by simpa [keys] using hkey⟩

theorem mem_keys_entriesOf : key ∈ keys (entriesOf members) ↔ key ∈ keys members := by
  rw [← not_iff_not, ← lookup_eq_none_iff, lookup_entriesOf, lookup_eq_none_iff]
  simp [keys]

theorem length_entriesOf_iff :
    (entriesOf members).length = members.length ↔ (keys members).Nodup := by
  have hperm : (keys (entriesOf members)).Perm (keys members).dedup :=
    (List.perm_ext_iff_of_nodup (sorted_entriesOf members).nodup (List.nodup_dedup _)).2
      fun key => by rw [mem_keys_entriesOf, List.mem_dedup]
  have hlength : (entriesOf members).length = (keys members).dedup.length := by
    simpa [keys] using hperm.length_eq
  have hkeys : members.length = (keys members).length := by simp [keys]
  rw [hlength, hkeys]
  constructor
  · intro h
    rw [← (List.dedup_sublist (keys members)).eq_of_length h]
    exact List.nodup_dedup _
  · intro h
    rw [h.dedup]

end BinarySplitting.Json
