import Mathlib.Data.Nat.ModEq
import Mathlib.Data.List.GetD
import Mathlib.Tactic.Ring
/-!
# Fixed-width slots in a circular region of memory

A memory is a function from offsets to values.  `Holds mem cap width start
items` says that `items` lie one after another in slots of `width` cells, the
first at offset `start % cap` and the later ones behind it, going round at
`cap`.  Appending an item behind the last one keeps the earlier items as long
as the region is not full, and dropping the first one shifts the start.
-/

namespace Doctrina.Lib.Ring

variable {β : Type*}

def readAt (mem : Nat → β) (off n : Nat) : List β :=
  (List.range n).map fun i => mem (off + i)

def writeAt (mem : Nat → β) (off : Nat) (items : List β) : Nat → β := fun i =>
  if off ≤ i then items.getD (i - off) (mem i) else mem i

@[simp] theorem length_readAt (mem : Nat → β) (off n : Nat) :
    (readAt mem off n).length = n := by
  simp [readAt]

theorem writeAt_inside (mem : Nat → β) (off : Nat) (items : List β) (i : Nat)
    (h : i < items.length) : writeAt mem off items (off + i) = items[i] := by
  rw [writeAt, if_pos (Nat.le_add_right off i), Nat.add_sub_cancel_left,
    List.getD_eq_getElem _ _ h]

theorem writeAt_outside (mem : Nat → β) (off : Nat) (items : List β) (i : Nat)
    (h : i < off ∨ off + items.length ≤ i) : writeAt mem off items i = mem i := by
  rw [writeAt]
  split
  · exact List.getD_eq_default _ _ (by omega)
  · rfl

theorem readAt_writeAt_same (mem : Nat → β) (off : Nat) (items : List β) :
    readAt (writeAt mem off items) off items.length = items := by
  apply List.ext_getElem
  · simp
  · intro i _ hi
    simp [readAt, writeAt_inside mem off items i hi]

theorem readAt_writeAt_disjoint (mem : Nat → β) (off off' n : Nat) (items : List β)
    (h : off' + n ≤ off ∨ off + items.length ≤ off') :
    readAt (writeAt mem off items) off' n = readAt mem off' n := by
  apply List.map_congr_left
  intro i hi
  have hlt : i < n := List.mem_range.mp hi
  exact writeAt_outside mem off items (off' + i) (by omega)

theorem readAt_append (mem : Nat → β) (off a b : Nat) :
    readAt mem off (a + b) = readAt mem off a ++ readAt mem (off + a) b := by
  simp only [readAt, List.range_add, List.map_append, List.map_map]
  congr 1
  apply List.map_congr_left
  intro i _
  rw [Function.comp_apply, Nat.add_assoc]

theorem readAt_writeAt_prefix (mem : Nat → β) (off : Nat) {items : List β} {n : Nat}
    (h : n ≤ items.length) : readAt (writeAt mem off items) off n = items.take n := by
  have hsplit : readAt (writeAt mem off items) off n ++
      readAt (writeAt mem off items) (off + n) (items.length - n) = items := by
    rw [← readAt_append, Nat.add_sub_of_le h, readAt_writeAt_same]
  calc readAt (writeAt mem off items) off n
      = (readAt (writeAt mem off items) off n ++
          readAt (writeAt mem off items) (off + n) (items.length - n)).take n :=
        (List.take_left' (length_readAt _ _ _)).symm
    _ = items.take n := by rw [hsplit]

theorem add_le_of_dvd_of_lt {width a b : Nat} (ha : width ∣ a) (hb : width ∣ b)
    (hlt : a < b) : a + width ≤ b := by
  have hle : width ≤ b - a := Nat.le_of_dvd (Nat.sub_pos_of_lt hlt) (Nat.dvd_sub hb ha)
  omega

/-- Offset of slot `i` behind `start`. -/
def slot (cap width start i : Nat) : Nat := (start + i * width) % cap

theorem slot_succ (cap width start i : Nat) :
    slot cap width start (i + 1) = slot cap width (start + width) i := by
  unfold slot
  congr 1
  ring

/-- Two slots less than one revolution apart do not overlap. -/
theorem slot_disjoint {cap width start i j : Nat} (hcap : width ∣ cap)
    (hstart : width ∣ start) (hij : i < j) (hj : j * width < i * width + cap) :
    slot cap width start i + width ≤ slot cap width start j ∨
      slot cap width start j + width ≤ slot cap width start i := by
  have hpos : 0 < cap := by
    have hle : i * width ≤ j * width := Nat.mul_le_mul_right width hij.le
    omega
  have hdvd : ∀ k, width ∣ slot cap width start k := fun k =>
    (Nat.dvd_mod_iff hcap).mpr (Nat.dvd_add hstart (Dvd.intro_left k rfl))
  have hne : slot cap width start i ≠ slot cap width start j := by
    intro heq
    have hmod : start + i * width ≡ start + j * width [MOD cap] := heq
    have hmod' : i * width ≡ j * width [MOD cap] := Nat.ModEq.add_left_cancel' start hmod
    have hle : i * width ≤ j * width := Nat.mul_le_mul_right width hij.le
    have hsub : cap ∣ j * width - i * width := (Nat.modEq_iff_dvd' hle).mp hmod'
    have hzero : j * width - i * width = 0 := Nat.eq_zero_of_dvd_of_lt hsub (by omega)
    have hwidth : width = 0 := by
      have hmul : (j - i) * width = 0 := by rw [Nat.sub_mul]; exact hzero
      rcases Nat.mul_eq_zero.mp hmul with h | h <;> omega
    subst hwidth
    have hcap0 : cap = 0 := Nat.eq_zero_of_zero_dvd hcap
    omega
  rcases Nat.lt_or_gt_of_ne hne with hlt | hgt
  · exact .inl (add_le_of_dvd_of_lt (hdvd i) (hdvd j) hlt)
  · exact .inr (add_le_of_dvd_of_lt (hdvd j) (hdvd i) hgt)

/-- `items` occupy consecutive slots of the ring, from `start` on. -/
def Holds (mem : Nat → β) (cap width start : Nat) (items : List (List β)) : Prop :=
  ∀ i (hi : i < items.length), readAt mem (slot cap width start i) width = items[i]

theorem holds_nil (mem : Nat → β) (cap width start : Nat) :
    Holds mem cap width start [] := by
  intro i hi
  exact absurd hi (Nat.not_lt_zero i)

theorem Holds.congr_start {mem : Nat → β} {cap width start start' : Nat}
    {items : List (List β)} (h : Holds mem cap width start items)
    (hmod : start ≡ start' [MOD cap]) : Holds mem cap width start' items := by
  intro i hi
  have hslot : slot cap width start' i = slot cap width start i :=
    (hmod.add_right (i * width)).symm
  rw [hslot]
  exact h i hi

theorem Holds.head {mem : Nat → β} {cap width start : Nat} {item : List β}
    {items : List (List β)} (h : Holds mem cap width start (item :: items)) :
    readAt mem (start % cap) width = item := by
  have h0 := h 0 (Nat.succ_pos _)
  simpa only [slot, Nat.zero_mul, Nat.add_zero, List.getElem_cons_zero] using h0

theorem Holds.tail {mem : Nat → β} {cap width start : Nat} {item : List β}
    {items : List (List β)} (h : Holds mem cap width start (item :: items)) :
    Holds mem cap width (start + width) items := by
  intro i hi
  rw [← slot_succ]
  exact h (i + 1) (by simpa using hi)

theorem Holds.push {mem : Nat → β} {cap width start off : Nat} {item : List β}
    {items : List (List β)} (h : Holds mem cap width start items)
    (hcap : width ∣ cap) (hstart : width ∣ start) (hitem : item.length = width)
    (hroom : items.length * width < cap)
    (hoff : off = slot cap width start items.length) :
    Holds (writeAt mem off item) cap width start (items ++ [item]) := by
  subst hoff
  intro i hi
  by_cases hlt : i < items.length
  · have hdisj := slot_disjoint hcap hstart hlt (by omega)
    rw [readAt_writeAt_disjoint _ _ _ _ _ (by rw [hitem]; exact hdisj),
      List.getElem_append_left hlt]
    exact h i hlt
  · have heq : i = items.length := by
      simp only [List.length_append, List.length_singleton] at hi
      omega
    subst heq
    have hread := readAt_writeAt_same mem (slot cap width start items.length) item
    rw [hitem] at hread
    rw [hread]
    simp

/-! ## Items of different lengths -/

/-- `items` lie one after another from `start` on, and none of them crosses
the end of the ring. -/
def Unbroken (cap : Nat) : Nat → List (List β) → Prop
  | _, [] => True
  | start, item :: items =>
      start % cap + item.length ≤ cap ∧ Unbroken cap (start + item.length) items

theorem Unbroken.congr_start {cap start start' : Nat} {items : List (List β)}
    (h : Unbroken cap start items) (hmod : start ≡ start' [MOD cap]) :
    Unbroken cap start' items := by
  induction items generalizing start start' with
  | nil => trivial
  | cons item items ih =>
      have hmod' : start % cap = start' % cap := hmod
      refine ⟨?_, ih h.2 (hmod.add_right item.length)⟩
      rw [← hmod']
      exact h.1

theorem Unbroken.push {cap start : Nat} {item : List β} {items : List (List β)}
    (h : Unbroken cap start items)
    (hitem : (start + items.flatten.length) % cap + item.length ≤ cap) :
    Unbroken cap start (items ++ [item]) := by
  induction items generalizing start with
  | nil => exact ⟨hitem, trivial⟩
  | cons first items ih =>
      refine ⟨h.1, ih h.2 ?_⟩
      rwa [List.flatten_cons, List.length_append, ← Nat.add_assoc] at hitem

end Doctrina.Lib.Ring
