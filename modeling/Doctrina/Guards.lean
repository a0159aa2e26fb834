import Doctrina.ByteList.Appends
import Doctrina.Stack.Runs
/-!
# The capacity guards of stack.c and list.c

`stack_push` and `list_append` add the size of a call to `top` or `len` before
they compare with the capacity, and the sum wraps.  Sizes are arbitrary words
here.
-/

namespace Doctrina.Guards

open Doctrina.Lib.Execution Doctrina.Lib.Word64

/-! ## The stack -/

section Stacks

open Doctrina.Stack

/-- A push is refused, or its end lies below the capacity, and then it copies
inside the array and does not move `top` back. -/
def PushFits (self : StackT) (data : List UInt8) : Prop :=
  stackPush self data (.ofNat data.length) = .ok (self, -1) ∨
    (self.top.toNat + data.length < self.cap.toNat ∧
      ∃ stack, stackPush self data (.ofNat data.length) = .ok (stack, 0) ∧
        self.top ≤ stack.top)

/-- `top` lies inside the array. -/
structure Bounded (cap : UInt64) (stack : StackT) : Prop where
  cap_eq : stack.cap = cap
  length_data : stack.data.length = cap.toNat
  top_le : stack.top.toNat ≤ cap.toNat

variable {cap : UInt64} {self : StackT} {data : List UInt8}

theorem bounded_create (cap : UInt64) : Bounded cap (stackCreate cap) :=
  ⟨rfl, List.length_replicate, Nat.zero_le _⟩

theorem length_take_ofNat (data : List UInt8) :
    (data.take (UInt64.ofNat data.length).toNat).length = (UInt64.ofNat data.length).toNat := by
  rw [List.length_take_of_le]
  rw [UInt64.toNat_ofNat']
  exact Nat.mod_le _ _

theorem Bounded.push (h : Bounded cap self) {result : StackT × Int}
    (hpush : stackPush self data (.ofNat data.length) = .ok result) : Bounded cap result.1 := by
  unfold stackPush at hpush
  split at hpush
  · cases hpush
    exact h
  · obtain ⟨block, hcopy, hresult⟩ := Except.bind_eq_ok hpush
    cases hresult
    have hlen := length_memcpyAt hcopy
    have hfits : self.top.toNat + (UInt64.ofNat data.length).toNat ≤ cap.toNat := by
      unfold memcpyAt at hcopy
      split at hcopy
      · rename_i hle
        rwa [length_take_ofNat, h.length_data] at hle
      · cases hcopy
    have hword := cap.toNat_lt
    refine ⟨h.cap_eq, hlen.trans h.length_data, ?_⟩
    change (self.top + UInt64.ofNat data.length).toNat ≤ cap.toNat
    rw [toNat_add_of_lt (by omega)]
    exact hfits

theorem Bounded.pop (h : Bounded cap self) {size : UInt64}
    {result : StackT × Option (List UInt8)} (hpop : stackPop self size = .ok result) :
    Bounded cap result.1 := by
  have htop := h.top_le
  unfold stackPop at hpop
  split at hpop
  · cases hpop
    exact h
  · rename_i hle
    obtain ⟨bytes, _, hresult⟩ := Except.bind_eq_ok hpop
    cases hresult
    refine ⟨h.cap_eq, h.length_data, ?_⟩
    change (self.top - size).toNat ≤ cap.toNat
    rw [UInt64.toNat_sub_of_le _ _ (UInt64.not_lt.mp hle)]
    omega

theorem Bounded.step {run next : Run} {op : Stack.Op} (h : Bounded cap run.stack)
    (hstep : run.step op = .ok next) : Bounded cap next.stack := by
  unfold Run.step at hstep
  cases op with
  | push data =>
      obtain ⟨result, hpush, hnext⟩ := Except.bind_eq_ok hstep
      cases hnext
      exact h.push hpush
  | peek size =>
      obtain ⟨bytes, _, hnext⟩ := Except.bind_eq_ok hstep
      cases hnext
      exact h
  | pop size =>
      obtain ⟨result, hpop, hnext⟩ := Except.bind_eq_ok hstep
      cases hnext
      exact h.pop hpop

theorem Bounded.refuses_iff (h : Bounded cap self) (hdata : data.length < 2 ^ 64) :
    UInt64.ofNat data.length + self.top ≥ self.cap ↔
      cap.toNat ≤ (data.length + self.top.toNat) % 2 ^ 64 := by
  rw [ge_iff_le, UInt64.le_iff_toNat_le, UInt64.toNat_add, UInt64.toNat_ofNat_of_lt' hdata,
    h.cap_eq]

theorem Bounded.pushFits (h : Bounded cap self)
    (hwrap : self.top.toNat + data.length < 2 ^ 64) : PushFits self data := by
  have hdata : data.length < 2 ^ 64 := by omega
  have hsize : (UInt64.ofNat data.length).toNat = data.length :=
    UInt64.toNat_ofNat_of_lt' hdata
  have hguard := h.refuses_iff hdata
  rw [Nat.mod_eq_of_lt (by omega)] at hguard
  unfold PushFits stackPush
  by_cases hfull : UInt64.ofNat data.length + self.top ≥ self.cap
  · left
    rw [if_pos hfull]
  · right
    have hroom := mt hguard.mpr hfull
    obtain ⟨block, hcopy⟩ : ∃ block, memcpyAt self.data self.top.toNat data = .ok block := by
      refine ⟨_, if_pos ?_⟩
      rw [h.length_data]
      omega
    refine ⟨by rw [h.cap_eq]; omega,
      ⟨self.cap, self.top + .ofNat data.length, block⟩, ?_, ?_⟩
    · rw [if_neg hfull, hsize, List.take_length, hcopy]
      rfl
    · rw [UInt64.le_iff_toNat_le, toNat_add_of_lt (by rw [hsize]; exact hwrap)]
      exact Nat.le_add_right _ _

/-- A sum that wraps lies below `top`: the guard lets it pass, and the copy goes
on past the array. -/
theorem Bounded.push_wraps (h : Bounded cap self) (hdata : data.length < 2 ^ 64)
    (hwrap : 2 ^ 64 ≤ self.top.toNat + data.length) :
    stackPush self data (.ofNat data.length) = .error .outOfBounds := by
  have htop := h.top_le
  have hword := cap.toNat_lt
  have hpasses : ¬UInt64.ofNat data.length + self.top ≥ self.cap := by
    rw [h.refuses_iff hdata]
    omega
  have hcopy : memcpyAt self.data self.top.toNat data = .error .outOfBounds := by
    apply if_neg
    rw [h.length_data]
    omega
  rw [stackPush, if_neg hpasses, UInt64.toNat_ofNat_of_lt' hdata, List.take_length, hcopy]
  rfl

theorem Bounded.pushFits_iff (h : Bounded cap self) (hdata : data.length < 2 ^ 64) :
    PushFits self data ↔ self.top.toNat + data.length < 2 ^ 64 := by
  constructor
  · intro hfits
    by_contra hwrap
    have hpush := h.push_wraps hdata (Nat.not_lt.mp hwrap)
    rcases hfits with hrefused | ⟨_, _, haccepted, _⟩
    · rw [hpush] at hrefused
      cases hrefused
    · rw [hpush] at haccepted
      cases haccepted
  · exact h.pushFits

end Stacks

/-! ## The list -/

section Lists

open Doctrina.ByteList

/-- If an append returns 0, its end lies within the capacity, no byte is copied
past it, and `len` does not go back. -/
def AppendFits (self : ListT) (data : List UInt8) : Prop :=
  ∀ list, listAppend self data (.ofNat data.length) = .ok (list, 0) →
    self.len.toNat + data.length ≤ self.cap.toNat ∧
      appendOffset self (.ofNat data.length) + data.length ≤ self.cap.toNat ∧
      self.len ≤ list.len

/-- The append is refused with a sum that does not wrap, or exits on the sum 0,
or has room for its copy behind the new length. -/
def AppendSafe (self : ListT) (data : List UInt8) : Prop :=
  (self.cap.toNat < self.len.toNat + data.length ∧
      self.len.toNat + data.length < 2 ^ 64) ∨
    self.len.toNat + data.length = 2 ^ 64 ∨
    self.len.toNat + 2 * data.length ≤ self.cap.toNat

instance (self : ListT) : DecidablePred (AppendSafe self) := fun _ =>
  inferInstanceAs (Decidable (_ ∨ _))

/-- `len` is within the capacity, and 0 as long as there is no block. -/
structure Within (cap : UInt64) (list : ListT) : Prop where
  cap_eq : list.cap = cap
  len_le : list.len ≤ cap
  len_of_none : list.data = none → list.len = 0

variable {cap : UInt64} {self : ListT} {data : List UInt8}

theorem within_create (cap : UInt64) : Within cap (listCreate cap) :=
  ⟨rfl, UInt64.le_iff_toNat_le.mpr (Nat.zero_le _), fun _ => rfl⟩

theorem Within.append (h : Within cap self) (hcap : 0 < cap.toNat) {size : UInt64}
    {result : ListT × Int} (happend : listAppend self data size = .ok result) :
    Within cap result.1 := by
  rcases append_cases self data size with
    ⟨_, heq⟩ | ⟨_, _, _, heq⟩ | ⟨hpasses, _, block, _, heq⟩
  · rw [heq] at happend
    cases happend
    exact h
  · rw [heq] at happend
    cases happend
  · rw [heq] at happend
    cases happend
    refine ⟨h.cap_eq, ?_, nofun⟩
    have hpos : self.cap > 0 := by
      rw [h.cap_eq, gt_iff_lt, UInt64.lt_iff_toNat_lt]
      exact hcap
    have hle := UInt64.not_lt.mp fun hlt => hpasses ⟨hpos, hlt⟩
    rwa [h.cap_eq, UInt64.add_comm] at hle

theorem Within.step {log next : Log} (h : Within cap log.list) (hcap : 0 < cap.toNat)
    (hstep : log.step data = .ok next) : Within cap next.list := by
  obtain ⟨result, happend, hnext⟩ := Except.bind_eq_ok hstep
  cases hnext
  exact h.append hcap happend

theorem Within.refuses_iff (h : Within cap self) (hcap : 0 < cap.toNat)
    (hdata : data.length < 2 ^ 64) : Refuses self (.ofNat data.length) ↔
      cap.toNat < (self.len.toNat + data.length) % 2 ^ 64 := by
  rw [Refuses, gt_iff_lt, gt_iff_lt, UInt64.lt_iff_toNat_lt, UInt64.lt_iff_toNat_lt,
    UInt64.toNat_add, UInt64.toNat_ofNat_of_lt' hdata, h.cap_eq, Nat.add_comm]
  exact and_iff_right hcap

theorem Within.appendFits_iff (h : Within cap self) (hcap : 0 < cap.toNat)
    (hdata : data.length < 2 ^ 64) : AppendFits self data ↔ AppendSafe self data := by
  have hrefuses := h.refuses_iff hcap hdata
  have hlen := UInt64.le_iff_toNat_le.mp h.len_le
  have hword := cap.toNat_lt
  have hsum : (self.len + .ofNat data.length).toNat =
      (self.len.toNat + data.length) % 2 ^ 64 := by
    rw [UInt64.toNat_add, UInt64.toNat_ofNat_of_lt' hdata]
  unfold AppendFits AppendSafe
  rw [appendOffset, hsum, h.cap_eq]
  rcases append_cases self data (.ofNat data.length) with
    ⟨hrefused, heq⟩ | ⟨hpasses, hzero, hblock, heq⟩ | ⟨hpasses, hzero, block, _, heq⟩
  · rw [hrefuses] at hrefused
    refine iff_of_true (fun list hlist => ?_) ?_
    · rw [heq, Except.ok.injEq, Prod.mk.injEq] at hlist
      exact absurd hlist.2 (by decide)
    · omega
  · rw [hzero, UInt64.toNat_zero] at hsum
    refine iff_of_true (fun list hlist => ?_) ?_
    · rw [heq] at hlist
      cases hlist
    · omega
  · rw [hrefuses] at hpasses
    have hnone : self.len.toNat + data.length ≠ 2 ^ 64 := by
      intro hwrap
      rw [hwrap, Nat.mod_self] at hsum
      have hlen := h.len_of_none (hzero (UInt64.toNat_inj.mp hsum))
      rw [hlen, UInt64.toNat_zero] at hwrap
      omega
    constructor
    · intro hfits
      obtain ⟨hend, hcopy, _⟩ := hfits _ heq
      rw [Nat.mod_eq_of_lt (by omega)] at hcopy
      omega
    · intro hsafe list hlist
      rw [heq, Except.ok.injEq, Prod.mk.injEq] at hlist
      rw [← hlist.1, UInt64.le_iff_toNat_le, hsum]
      omega

end Lists

/-- On every stack and on every list with a capacity that calls of any sizes lead
to, a push keeps to the capacity if and only if its sum does not wrap, and an
append if and only if it is safe. -/
theorem guards_fit_iff {cap cap' : UInt64} (hcap : 0 < cap'.toNat) {ops : List Stack.Op}
    {run : Stack.Run}
    (hrun : ops.foldlM Stack.Run.step ⟨Stack.stackCreate cap, []⟩ = .ok run)
    {items : List (List UInt8)} {log : ByteList.Log}
    (hlog : items.foldlM ByteList.Log.step (ByteList.Log.start cap') = .ok log)
    (data : List UInt8) (hdata : data.length < 2 ^ 64) :
    (PushFits run.stack data ↔ run.stack.top.toNat + data.length < 2 ^ 64) ∧
      (AppendFits log.list data ↔ AppendSafe log.list data) := by
  have hbounded : Bounded cap run.stack :=
    invariant_foldlM (fun (run : Stack.Run) (op : Stack.Op) next (h : Bounded cap run.stack)
      (hstep : run.step op = .ok next) => h.step hstep) (bounded_create cap) hrun
  have hwithin : Within cap' log.list :=
    invariant_foldlM (fun (log : ByteList.Log) data next (h : Within cap' log.list)
      (hstep : log.step data = .ok next) => h.step hcap hstep) (within_create cap') hlog
  exact ⟨hbounded.pushFits_iff hdata, hwithin.appendFits_iff hcap hdata⟩

theorem guards_fit_iff_tests :
    (PushFits ⟨4, 1, [1, 0, 0, 0]⟩ [2] ↔ (1 : UInt64).toNat + [2].length < 2 ^ 64) ∧
      (AppendFits ⟨16, 4, some ⟨4, Lib.Ring.writeAt (fun _ => 0) 4 [1, 0, 0, 0]⟩⟩ [2] ↔
        AppendSafe ⟨16, 4, some ⟨4, Lib.Ring.writeAt (fun _ => 0) 4 [1, 0, 0, 0]⟩⟩ [2]) :=
  @guards_fit_iff 4 16 (by decide) [.push [1]] ⟨⟨4, 1, [1, 0, 0, 0]⟩, [.code 0]⟩ rfl
    [[1, 0, 0, 0]]
    ⟨⟨16, 4, some ⟨4, Lib.Ring.writeAt (fun _ => 0) 4 [1, 0, 0, 0]⟩⟩, [[1, 0, 0, 0]]⟩ rfl
    [2] (by decide)

/-- A push of 2 ^ 64 - 1 bytes onto one byte, and an append of as many to two. -/
theorem guards_wrap :
    (¬∀ (cap : UInt64) (ops : List Stack.Op) (run : Stack.Run) (data : List UInt8),
      ops.foldlM Stack.Run.step ⟨Stack.stackCreate cap, []⟩ = .ok run →
        data.length < 2 ^ 64 → PushFits run.stack data) ∧
    ¬∀ (cap : UInt64) (items : List (List UInt8)) (log : ByteList.Log) (data : List UInt8),
      0 < cap.toNat → items.foldlM ByteList.Log.step (ByteList.Log.start cap) = .ok log →
        data.length < 2 ^ 64 → AppendFits log.list data := by
  have hlen : (List.replicate (2 ^ 64 - 1) (0 : UInt8)).length = 2 ^ 64 - 1 :=
    List.length_replicate
  have hdata : (List.replicate (2 ^ 64 - 1) (0 : UInt8)).length < 2 ^ 64 := by
    rw [hlen]
    decide
  constructor
  · intro h
    have hfits := h 4 [.push [1]] ⟨⟨4, 1, [1, 0, 0, 0]⟩, [.code 0]⟩ _ rfl hdata
    have hbounded : Bounded 4 ⟨4, 1, [1, 0, 0, 0]⟩ := ⟨rfl, rfl, by decide⟩
    rw [hbounded.pushFits_iff hdata, hlen] at hfits
    revert hfits
    decide
  · intro h
    have hfits := h 8 [[1, 2]]
      ⟨⟨8, 2, some ⟨2, Lib.Ring.writeAt (fun _ => 0) 2 [1, 2]⟩⟩, [[1, 2]]⟩ _ (by decide) rfl
      hdata
    have hwithin : Within 8 ⟨8, 2, some ⟨2, Lib.Ring.writeAt (fun _ => 0) 2 [1, 2]⟩⟩ :=
      ⟨rfl, by decide, nofun⟩
    rw [hwithin.appendFits_iff (by decide) hdata, AppendSafe, hlen] at hfits
    revert hfits
    decide

end Doctrina.Guards
