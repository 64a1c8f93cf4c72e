import Mathlib.Data.List.Nodup
import Mathlib.Data.List.Perm.Basic

/-! # Lists with distinct keys

In a list of records whose keys are distinct a record is known by its key: taking one out, or
putting another in its place, leaves just those with other keys. -/

namespace ArgoBbs

variable {α κ : Type} {key : α → κ} {l rest : List α} {i : Nat} {x y z : α}

theorem mem_rest_iff_key (h : (l.map key).Nodup) (hp : l.Perm (x :: rest)) :
    y ∈ rest ↔ y ∈ l ∧ key y ≠ key x := by
  have hx : key x ∉ rest.map key := (List.nodup_cons.mp ((hp.map key).nodup_iff.mp h)).1
  rw [hp.mem_iff, List.mem_cons]
  constructor
  · intro hy
    exact ⟨.inr hy, fun heq => hx (heq ▸ List.mem_map_of_mem hy)⟩
  · rintro ⟨rfl | hy, hne⟩
    · exact absurd rfl hne
    · exact hy

theorem nodup_rest (h : (l.map key).Nodup) (hp : l.Perm (x :: rest)) : (rest.map key).Nodup :=
  (List.nodup_cons.mp ((hp.map key).nodup_iff.mp h)).2

theorem perm_cons_eraseIdx (hi : l[i]? = some x) : l.Perm (x :: l.eraseIdx i) := by
  obtain ⟨hlt, rfl⟩ := List.getElem?_eq_some_iff.mp hi
  exact (List.getElem_cons_eraseIdx_perm hlt).symm

theorem mem_set_iff_key (h : (l.map key).Nodup) (hi : l[i]? = some x) :
    y ∈ l.set i z ↔ y = z ∨ y ∈ l ∧ key y ≠ key x := by
  have hlt : i < l.length := (List.getElem?_eq_some_iff.mp hi).1
  rw [← mem_rest_iff_key h (perm_cons_eraseIdx hi), (List.set_perm_cons_eraseIdx hlt z).mem_iff,
    List.mem_cons]

theorem map_key_set (hi : l[i]? = some x) (hz : key z = key x) :
    (l.set i z).map key = l.map key := by
  obtain ⟨hlt, rfl⟩ := List.getElem?_eq_some_iff.mp hi
  rw [List.map_set, hz, ← List.getElem_map key (h := by rwa [List.length_map]),
    List.set_getElem_self]

/-- The search for a key finds the record that has it. -/
theorem find?_eq_some_iff_key [DecidableEq κ] {k : κ} (h : (l.map key).Nodup) :
    l.find? (key · = k) = some x ↔ x ∈ l ∧ key x = k := by
  constructor
  · intro hx
    exact ⟨List.mem_of_find?_eq_some hx, by simpa using List.find?_some hx⟩
  · rintro ⟨hx, hk⟩
    obtain ⟨y, hy⟩ : ∃ y, l.find? (key · = k) = some y :=
      Option.isSome_iff_exists.mp (List.find?_isSome.mpr ⟨x, hx, decide_eq_true hk⟩)
    have hyk : key y = k := by simpa using List.find?_some hy
    rw [hy, List.inj_on_of_nodup_map h (List.mem_of_find?_eq_some hy) hx (hyk.trans hk.symm)]

end ArgoBbs
