import Doctrina.Lib.Execution
import Doctrina.Lib.Word64
import Doctrina.Stack.Basic
/-!
# The stack is a byte string that grows and shrinks at its end

The records of different calls may have different sizes, so a pop can cut
through several pushed records.  What is left above `top` stays in the array
until a later push overwrites it and is never read.
-/

namespace Doctrina.Stack

open Doctrina.Lib.Execution

inductive Op
  | push (data : List UInt8)
  | peek (size : UInt64)
  | pop (size : UInt64)

inductive Result
  | code (value : Int)
  | bytes (data : Option (List UInt8))

/-! ## The abstract stack -/

def lastBytes (string : List UInt8) (n : Nat) : Option (List UInt8) :=
  if string.length < n then none else some (string.drop (string.length - n))

/-- A byte string, and what the calls on it have returned. -/
structure Spec where
  string : List UInt8
  results : List Result

/-- A push goes behind the string if the sum of the lengths stays below `cap`,
a peek returns the last bytes, and a pop cuts them off too. -/
def Spec.step (cap : Nat) (spec : Spec) : Op → Spec
  | .push data =>
      if spec.string.length + data.length < cap then
        ⟨spec.string ++ data, spec.results ++ [.code 0]⟩
      else ⟨spec.string, spec.results ++ [.code (-1)]⟩
  | .peek size => ⟨spec.string, spec.results ++ [.bytes (lastBytes spec.string size.toNat)]⟩
  | .pop size =>
      ⟨if spec.string.length < size.toNat then spec.string
        else spec.string.take (spec.string.length - size.toNat),
        spec.results ++ [.bytes (lastBytes spec.string size.toNat)]⟩

/-! ## The stack of the code -/

structure Run where
  stack : StackT
  results : List Result

def Run.step (run : Run) : Op → Except Fault Run
  | .push data => do
      let (stack, code) ← stackPush run.stack data (.ofNat data.length)
      return ⟨stack, run.results ++ [.code code]⟩
  | .peek size => do
      let data ← stackPeek run.stack size
      return ⟨run.stack, run.results ++ [.bytes data]⟩
  | .pop size => do
      let (stack, data) ← stackPop run.stack size
      return ⟨stack, run.results ++ [.bytes data]⟩

/-- The sum of the size of a push and `top` is computed without wrapping. -/
def NoWrap (run : Run) : Op → Prop
  | .push data => data.length + run.stack.top.toNat < 2 ^ 64
  | .peek _ => True
  | .pop _ => True

instance (run : Run) : DecidablePred (NoWrap run)
  | .push _ => inferInstanceAs (Decidable (_ < _))
  | .peek _ => inferInstanceAs (Decidable True)
  | .pop _ => inferInstanceAs (Decidable True)

/-- The bytes of the array below `top` are the string. -/
structure StackT.Holds (stack : StackT) (string : List UInt8) : Prop where
  length_data : stack.data.length = stack.cap.toNat
  top_eq : stack.top.toNat = string.length
  top_le : stack.top.toNat ≤ stack.cap.toNat
  take_top : stack.data.take stack.top.toNat = string

theorem holds_create (cap : UInt64) : (stackCreate cap).Holds [] where
  length_data := List.length_replicate
  top_eq := rfl
  top_le := Nat.zero_le _
  take_top := rfl

namespace StackT.Holds

variable {self : StackT} {string : List UInt8}

theorem push_lt_iff (h : self.Holds string) {data : List UInt8}
    (hwrap : data.length + self.top.toNat < 2 ^ 64) :
    UInt64.ofNat data.length + self.top < self.cap ↔
      string.length + data.length < self.cap.toNat := by
  have hword : data.length < 2 ^ 64 := by omega
  have hsize : (UInt64.ofNat data.length).toNat = data.length :=
    UInt64.toNat_ofNat_of_lt' hword
  rw [UInt64.lt_iff_toNat_lt, UInt64.toNat_add, hsize, Nat.mod_eq_of_lt hwrap, h.top_eq]
  omega

theorem push_of_lt (h : self.Holds string) {data : List UInt8}
    (hwrap : data.length + self.top.toNat < 2 ^ 64)
    (hroom : string.length + data.length < self.cap.toNat) :
    ∃ stack, stackPush self data (.ofNat data.length) = .ok (stack, 0) ∧
      stack.cap = self.cap ∧ stack.Holds (string ++ data) := by
  have hword : data.length < 2 ^ 64 := by omega
  have hsize : (UInt64.ofNat data.length).toNat = data.length :=
    UInt64.toNat_ofNat_of_lt' hword
  have htop := h.top_eq
  have hfits : self.top.toNat + data.length ≤ self.data.length := by
    rw [h.length_data, htop]
    omega
  have hcopy : memcpyAt self.data self.top.toNat (data.take data.length) =
      .ok (string ++ data ++ self.data.drop (self.top.toNat + data.length)) := by
    rw [List.take_length, memcpyAt, if_pos hfits, h.take_top]
  have hlt := (h.push_lt_iff hwrap).mpr hroom
  have hnext : (self.top + UInt64.ofNat data.length).toNat =
      string.length + data.length := by
    rw [UInt64.toNat_add, hsize, Nat.mod_eq_of_lt (by omega), htop]
  refine ⟨{ self with
    data := string ++ data ++ self.data.drop (self.top.toNat + data.length)
    top := self.top + UInt64.ofNat data.length }, ?_, rfl, ?_, ?_, ?_, ?_⟩
  · rw [stackPush, if_neg (UInt64.not_le.mpr hlt), hsize, hcopy]
    rfl
  · exact (length_memcpyAt hcopy).trans h.length_data
  · rw [List.length_append]
    exact hnext
  · change (self.top + UInt64.ofNat data.length).toNat ≤ self.cap.toNat
    omega
  · rw [hnext, ← List.length_append]
    exact List.take_left' rfl

theorem push_of_not_lt (h : self.Holds string) {data : List UInt8}
    (hwrap : data.length + self.top.toNat < 2 ^ 64)
    (hroom : ¬string.length + data.length < self.cap.toNat) :
    stackPush self data (.ofNat data.length) = .ok (self, -1) := by
  have hle := UInt64.not_lt.mp (mt (h.push_lt_iff hwrap).mp hroom)
  exact if_pos hle

theorem top_lt_iff (h : self.Holds string) (size : UInt64) :
    self.top < size ↔ string.length < size.toNat := by
  rw [UInt64.lt_iff_toNat_lt, h.top_eq]

theorem bytesAt_eq (h : self.Holds string) {size : UInt64} (hle : size ≤ self.top) :
    bytesAt self.data (self.top - size).toNat size.toNat =
      .ok (string.drop (string.length - size.toNat)) := by
  have hle' : size.toNat ≤ string.length := by
    rw [← h.top_eq]
    exact UInt64.le_iff_toNat_le.mp hle
  have hsub : (self.top - size).toNat = string.length - size.toNat := by
    rw [UInt64.toNat_sub_of_le _ _ hle, h.top_eq]
  have hbound : self.top.toNat ≤ self.data.length := by
    rw [h.length_data]
    exact h.top_le
  have htop := h.top_eq
  rw [bytesAt, hsub, if_pos (by omega), ← h.take_top, List.drop_take,
    List.length_take_of_le hbound]
  congr 2
  omega

theorem peek (h : self.Holds string) (size : UInt64) :
    stackPeek self size = .ok (lastBytes string size.toNat) := by
  by_cases hlt : self.top < size
  · rw [stackPeek, if_pos hlt, lastBytes, if_pos ((h.top_lt_iff size).mp hlt)]
  · rw [stackPeek, if_neg hlt, h.bytesAt_eq (UInt64.not_lt.mp hlt), lastBytes,
      if_neg (mt (h.top_lt_iff size).mpr hlt)]
    rfl

theorem pop_of_lt (h : self.Holds string) {size : UInt64}
    (hlt : string.length < size.toNat) : stackPop self size = .ok (self, none) :=
  if_pos ((h.top_lt_iff size).mpr hlt)

theorem pop_of_not_lt (h : self.Holds string) {size : UInt64}
    (hlt : ¬string.length < size.toNat) :
    ∃ stack, stackPop self size =
        .ok (stack, some (string.drop (string.length - size.toNat))) ∧
      stack.cap = self.cap ∧ stack.Holds (string.take (string.length - size.toNat)) := by
  have hle : size ≤ self.top := UInt64.not_lt.mp (mt (h.top_lt_iff size).mp hlt)
  have hsub : (self.top - size).toNat = string.length - size.toNat := by
    rw [UInt64.toNat_sub_of_le _ _ hle, h.top_eq]
  refine ⟨{ self with top := self.top - size }, ?_, rfl, h.length_data, ?_, ?_, ?_⟩
  · simp only [stackPop, if_neg (UInt64.not_lt.mpr hle), h.bytesAt_eq hle]
    rfl
  · rw [List.length_take_of_le (Nat.sub_le _ _)]
    exact hsub
  · have hcap := h.top_le
    have htop := h.top_eq
    change (self.top - size).toNat ≤ self.cap.toNat
    omega
  · rw [← h.take_top, List.take_take, h.take_top]
    have htop := h.top_eq
    change self.data.take (self.top - size).toNat = _
    rw [hsub]
    congr 1
    omega

end StackT.Holds

/-! ## Runs -/

/-- The stack holds the string, and both have returned the same. -/
structure Refines (cap : UInt64) (spec : Spec) (run : Run) : Prop where
  cap_eq : run.stack.cap = cap
  holds : run.stack.Holds spec.string
  results_eq : run.results = spec.results

theorem Refines.step {cap : UInt64} {spec : Spec} {run : Run} {op : Op}
    (h : Refines cap spec run) (hop : NoWrap run op) :
    ∃ next, run.step op = .ok next ∧ Refines cap (spec.step cap.toNat op) next := by
  obtain ⟨hcap, hholds, hresults⟩ := h
  cases op with
  | push data =>
      rw [Spec.step, ← hcap]
      split
      · rename_i hroom
        obtain ⟨stack, heq, hcap', hnext⟩ := hholds.push_of_lt hop hroom
        refine ⟨⟨stack, run.results ++ [.code 0]⟩, ?_, hcap', hnext, ?_⟩
        · rw [Run.step, heq]
          rfl
        · rw [hresults]
      · rename_i hroom
        refine ⟨⟨run.stack, run.results ++ [.code (-1)]⟩, ?_, rfl, hholds, ?_⟩
        · rw [Run.step, hholds.push_of_not_lt hop hroom]
          rfl
        · rw [hresults]
  | peek size =>
      refine ⟨⟨run.stack, run.results ++ [.bytes (lastBytes spec.string size.toNat)]⟩,
        ?_, hcap, hholds, ?_⟩
      · rw [Run.step, hholds.peek]
        rfl
      · rw [hresults]
        rfl
  | pop size =>
      rw [Spec.step, lastBytes]
      split
      · rename_i hlt
        refine ⟨⟨run.stack, run.results ++ [.bytes none]⟩, ?_, hcap, hholds, ?_⟩
        · rw [Run.step, hholds.pop_of_lt hlt]
          rfl
        · rw [hresults]
      · rename_i hlt
        obtain ⟨stack, heq, hcap', hnext⟩ := hholds.pop_of_not_lt hlt
        refine ⟨⟨stack, run.results ++
          [.bytes (some (spec.string.drop (spec.string.length - size.toNat)))]⟩, ?_,
          hcap'.trans hcap, hnext, ?_⟩
        · rw [Run.step, heq]
          rfl
        · rw [hresults]

end Doctrina.Stack
