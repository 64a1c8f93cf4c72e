import ArgoBbs.User.MultiLogin

/-! # The iterators over the online table

Three functions of `ucache.c` go over the slots and call a function for each: `apply_ulist` for the
slots of users who are online, `apply_ulist_address` up to the last active slot, and `search_ulist`
for all. `apply_ulist` ends one slot too early. -/

namespace ArgoBbs

/-- What a called function returns to end the iteration. -/
def quit : Int := 0x666

/-- The entry is active and has a process. -/
def UserInfo.online (entry : UserInfo) : Bool := entry.active && entry.pid != 0

section
variable {σ : Type}

/-- The loop of the iterators over some slots. `fptr` is called with the number and the entry of a
slot and may keep a state; the result is the slots it is called for and the slot at which it ends
the loop. -/
def callSlots (slots : Nat → UserInfo) (skips : UserInfo → Bool) (ends : Int → Bool)
    (fptr : σ → Nat → UserInfo → Int × σ) : List Nat → σ → List Nat × Option Nat
  | [], _ => ([], none)
  | i :: rest, s =>
    if skips (slots i) then callSlots slots skips ends fptr rest s
    else if ends (fptr s i (slots i)).1 then ([i], some i)
    else
      let r := callSlots slots skips ends fptr rest (fptr s i (slots i)).2
      (i :: r.1, r.2)

/-- `max` at the end of its loop. -/
def lastActive (slots : Nat → UserInfo) : Nat → Nat
  | 0 => 0
  | max + 1 => if !(slots (max + 1)).active then lastActive slots max else max + 1

namespace Site
variable (site : Site) (slots : Nat → UserInfo) (fptr : σ → Nat → UserInfo → Int × σ) (s : σ)

/-- The calls and the result. -/
def applyUlist : List Nat × Int :=
  let r := callSlots slots (fun entry => !entry.active || entry.pid == 0) (· == quit) fptr
    (List.range (site.ushmSize - 1)) s
  (r.1, if r.2.isSome then quit else 0)

def applyUlistAddress : List Nat × Int :=
  let r := callSlots slots (fun _ => false) (· == quit) fptr
    (List.range (lastActive slots (site.ushmSize - 1) + 1)) s
  (r.1, if r.2.isSome then quit else 0)

def searchUlist : List Nat × Nat :=
  let r := callSlots slots (fun _ => false) (· != 0) fptr (List.range site.ushmSize) s
  (r.1, r.2.elim 0 (· + 1))

/-- The slots of all users who are online, in the order of the table. -/
def onlineSlots : List Nat := (List.range site.ushmSize).filter fun i => (slots i).online

/-- `apply_ulist` calls the function for every slot of a user who is online, in their order, until
it returns `QUIT`; and returns this. -/
def AppliesToAll : Prop :=
  site.applyUlist slots fptr s =
    let r := callSlots slots (fun _ => false) (· == quit) fptr (site.onlineSlots slots) s
    (r.1, if r.2.isSome then quit else 0)

/-- The slots of users who are online among those that an iterator has shown. -/
def onlineAmong (calls : List Nat) : List Nat := calls.filter fun i => (slots i).online

/-- The iterators show the same users who are online to a function that does not end them. -/
def IteratorsAgree : Prop :=
  let goOn : Unit → Nat → UserInfo → Int × Unit := fun _ _ _ => (0, ())
  onlineAmong slots (site.applyUlist slots goOn ()).1 =
      onlineAmong slots (site.applyUlistAddress slots goOn ()).1 ∧
    onlineAmong slots (site.applyUlist slots goOn ()).1 =
      onlineAmong slots (site.searchUlist slots goOn ()).1

end Site

variable {slots : Nat → UserInfo} {skips : UserInfo → Bool} {ends : Int → Bool}
  {fptr : σ → Nat → UserInfo → Int × σ}

/-- To skip slots is not to have them. -/
theorem callSlots_skip (l : List Nat) (s : σ) :
    callSlots slots skips ends fptr l s =
      callSlots slots (fun _ => false) ends fptr (l.filter fun i => !skips (slots i)) s := by
  induction l generalizing s with
  | nil => rfl
  | cons i rest ih =>
    cases hskip : skips (slots i) with
    | true =>
      rw [callSlots, if_pos hskip, ih, List.filter_cons_of_neg (by simp [hskip])]
    | false =>
      rw [callSlots, if_neg (by simp [hskip]), ih, List.filter_cons_of_pos (by simp [hskip])]
      simp only [callSlots, Bool.false_eq_true, if_false]

/-- One more slot makes a difference if the function has not ended the loop before. -/
theorem callSlots_concat (l : List Nat) (n : Nat) (s : σ) :
    ((callSlots slots (fun _ => false) ends fptr l s).2.isSome ∧
      callSlots slots (fun _ => false) ends fptr (l ++ [n]) s =
        callSlots slots (fun _ => false) ends fptr l s) ∨
    ((callSlots slots (fun _ => false) ends fptr l s).2 = none ∧
      (callSlots slots (fun _ => false) ends fptr (l ++ [n]) s).1 =
        (callSlots slots (fun _ => false) ends fptr l s).1 ++ [n]) := by
  induction l generalizing s with
  | nil =>
    refine .inr ⟨rfl, ?_⟩
    simp only [List.nil_append, callSlots, Bool.false_eq_true, if_false]
    split <;> rfl
  | cons i rest ih =>
    simp only [List.cons_append, callSlots]
    by_cases hend : ends (fptr s i (slots i)).1 = true
    · exact .inl (by simp [hend])
    · rcases ih (fptr s i (slots i)).2 with ⟨hsome, heq⟩ | ⟨hnone, heq⟩
      · exact .inl (by simp [hend, hsome, heq])
      · exact .inr (by simp [hend, hnone, heq])

/-- A function that never ends the loop is shown all slots. -/
theorem callSlots_goOn (hends : ∀ s i entry, ends (fptr s i entry).1 = false) (l : List Nat)
    (s : σ) : callSlots slots (fun _ => false) ends fptr l s = (l, none) := by
  induction l generalizing s with
  | nil => rfl
  | cons i rest ih => simp only [callSlots, hends, ih, Bool.false_eq_true, if_false]

end

/-- Behind the last active slot no user is online. -/
theorem online_le_lastActive {slots : Nat → UserInfo} {max i : Nat} (hi : i ≤ max)
    (honline : (slots i).online = true) : i ≤ lastActive slots max := by
  induction max with
  | zero => exact hi
  | succ max ih =>
    unfold lastActive
    split
    · rename_i hidle
      rcases Nat.le_succ_iff.mp hi with hi | rfl
      · exact ih hi
      · simp_all [UserInfo.online]
    · exact hi

theorem lastActive_le (slots : Nat → UserInfo) (max : Nat) : lastActive slots max ≤ max := by
  induction max with
  | zero => exact Nat.le_refl 0
  | succ max ih =>
    unfold lastActive
    split
    · exact Nat.le_succ_of_le ih
    · exact Nat.le_refl _

namespace Site
variable (site : Site) (slots : Nat → UserInfo) {σ : Type} (fptr : σ → Nat → UserInfo → Int × σ)
  (s : σ)

theorem ushmSize_eq : site.ushmSize = site.ushmSize - 1 + 1 := rfl

/-- The users who are online are those before the last slot and the one of the last slot. -/
theorem onlineSlots_eq : site.onlineSlots slots =
    onlineAmong slots (List.range (site.ushmSize - 1)) ++
      if (slots (site.ushmSize - 1)).online then [site.ushmSize - 1] else [] := by
  unfold onlineSlots onlineAmong
  rw [ushmSize_eq, List.range_succ, List.filter_append, Nat.add_sub_cancel, List.filter_singleton]
  cases (slots (site.ushmSize - 1)).online <;> rfl

/-- `apply_ulist` is the loop over all users who are online but the one of the last slot. -/
theorem applyUlist_eq : site.applyUlist slots fptr s =
    let r := callSlots slots (fun _ => false) (· == quit) fptr
      (onlineAmong slots (List.range (site.ushmSize - 1))) s
    (r.1, if r.2.isSome then quit else 0) := by
  have hskip : (fun i => !(!(slots i).active || (slots i).pid == 0)) =
      fun i => (slots i).online := by
    funext i
    rw [UserInfo.online, Bool.not_or, Bool.not_not]
    rfl
  have hskipped (l : List Nat) : callSlots slots (fun entry => !entry.active || entry.pid == 0)
      (· == quit) fptr l s = callSlots slots (fun _ => false) (· == quit) fptr
        (l.filter fun i => !(!(slots i).active || (slots i).pid == 0)) s := callSlots_skip l s
  unfold applyUlist onlineAmong
  simp only [hskipped, hskip]

/-- A function gets the calls that it should get if no user is online at the last slot, or if it
ends the loop before. -/
theorem appliesToAll_iff : site.AppliesToAll slots fptr s ↔
    (slots (site.ushmSize - 1)).online = false ∨ (site.applyUlist slots fptr s).2 = quit := by
  unfold AppliesToAll
  rw [applyUlist_eq, onlineSlots_eq]
  cases hlast : (slots (site.ushmSize - 1)).online with
  | false => simp
  | true =>
    simp only [if_true, Bool.true_eq_false, false_or]
    have hconcat := @callSlots_concat σ slots (· == quit) fptr
      (onlineAmong slots (List.range (site.ushmSize - 1))) (site.ushmSize - 1) s
    rcases hconcat with ⟨hsome, heq⟩ | ⟨hnone, heq⟩
    · simp only [heq, hsome, if_true]
    · refine iff_of_false (fun hsame => ?_) ?_
      · have hcalls := congrArg (fun r => r.1.length) hsame
        simp only [heq, List.length_append, List.length_singleton] at hcalls
        omega
      · rw [hnone]
        decide

/-- What is online up to the last active slot is all that is online. -/
theorem onlineAmong_lastActive :
    onlineAmong slots (List.range (lastActive slots (site.ushmSize - 1) + 1)) =
      site.onlineSlots slots := by
  have hle := lastActive_le slots (site.ushmSize - 1)
  obtain ⟨k, hk⟩ := Nat.exists_eq_add_of_le hle
  have hsize : site.ushmSize = lastActive slots (site.ushmSize - 1) + 1 + k := by
    have := site.ushmSize_eq
    omega
  unfold onlineSlots onlineAmong
  conv_rhs => rw [hsize, List.range_add, List.filter_append]
  rw [List.self_eq_append_right, List.filter_eq_nil_iff]
  intro i hi honline
  obtain ⟨j, hj, rfl⟩ := List.mem_map.mp hi
  have hj := List.mem_range.mp hj
  have hbehind : lastActive slots (site.ushmSize - 1) + 1 + j ≤
      lastActive slots (site.ushmSize - 1) := online_le_lastActive (by omega) honline
  omega

theorem iteratorsAgree_iff :
    site.IteratorsAgree slots ↔ (slots (site.ushmSize - 1)).online = false := by
  unfold IteratorsAgree
  simp only [applyUlist_eq, applyUlistAddress, searchUlist]
  rw [callSlots_goOn (by intros; rfl), callSlots_goOn (by intros; rfl),
    callSlots_goOn (by intros; rfl), onlineAmong_lastActive]
  have hall : onlineAmong slots (List.range site.ushmSize) = site.onlineSlots slots := rfl
  have htwice (l : List Nat) : onlineAmong slots (onlineAmong slots l) = onlineAmong slots l := by
    simp only [onlineAmong, List.filter_filter, Bool.and_self]
  simp only [hall, htwice, and_self]
  rw [onlineSlots_eq]
  cases (slots (site.ushmSize - 1)).online <;> simp

/-- `apply_ulist` shows a function all users who are online, and the iterators agree on these, just
if no user is online at the last slot. -/
theorem apply_ulist_complete_iff : site.AppliesToAll slots fptr s ∧ site.IteratorsAgree slots ↔
    (slots (site.ushmSize - 1)).online = false := by
  rw [iteratorsAgree_iff, and_iff_right_iff_imp, appliesToAll_iff]
  exact .inl

/-- The last user for whom there is a slot, at a site for 90 users. -/
theorem apply_ulist_misses_last : ¬∀ (site : Site) (slots : Nat → UserInfo) (σ : Type)
    (fptr : σ → Nat → UserInfo → Int × σ) (s : σ),
    site.AppliesToAll slots fptr s ∧ site.IteratorsAgree slots := by
  intro hclaim
  have hall := hclaim ⟨90, fun _ => 0, fun _ => false⟩ (fun i => ⟨true, i, i + 1, 0, 0⟩) Unit
    (fun _ _ _ => (0, ())) ()
  exact absurd ((iteratorsAgree_iff ..).mp hall.2) (by decide)

end Site

end ArgoBbs
