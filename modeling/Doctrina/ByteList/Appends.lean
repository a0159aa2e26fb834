import Doctrina.ByteList.Basic
import Doctrina.Lib.Execution
/-!
# Runs of appends

`list_append` raises `len`, makes the block as long as that, and then copies to
`data + len`, which is the end of the block: no append of a non-empty string
that is accepted writes inside the block.
-/

namespace Doctrina.ByteList

open Doctrina.Lib.Execution Doctrina.Lib.Ring

structure Log where
  list : ListT
  accepted : List (List UInt8)

def Log.start (cap : UInt64) : Log := ⟨listCreate cap, []⟩

def Log.step (log : Log) (data : List UInt8) : Except Fault Log := do
  let (list, code) ← listAppend log.list data (.ofNat data.length)
  return ⟨list, if code = 0 then log.accepted ++ [data] else log.accepted⟩

/-- An append is refused exactly if there is a capacity and the string does not
fit in it, a refusal changes nothing, and the copy of an accepted append lies
inside the block, which is as long as the list. -/
structure Correct (log : Log) (data : List UInt8) : Prop where
  refused : (∃ list, listAppend log.list data (.ofNat data.length) = .ok (list, -1)) ↔
    0 < log.list.cap.toNat ∧ log.list.cap.toNat < log.list.len.toNat + data.length
  kept : ∀ list, listAppend log.list data (.ofNat data.length) = .ok (list, -1) →
    list = log.list
  inside : ∀ list, listAppend log.list data (.ofNat data.length) = .ok (list, 0) →
    ∃ block, list.data = some block ∧ block.size = list.len.toNat ∧
      appendOffset log.list (.ofNat data.length) + data.length ≤ block.size

/-- Every append of a run is correct, and the list at its end holds the accepted
strings one behind the other. -/
structure Concatenates (cap : UInt64) (items : List (List UInt8)) : Prop where
  steps : AlongM Log.step Correct (Log.start cap) items
  result : ∃ log, items.foldlM Log.step (Log.start cap) = .ok log ∧
    log.list.len.toNat = log.accepted.flatten.length ∧
    log.list.contents = log.accepted.flatten

section Append

variable {log : Log} {data : List UInt8}

/-- The copy starts where the block ends. -/
theorem Correct.not_accepted (h : Correct log data) (hne : data ≠ []) (list : ListT) :
    listAppend log.list data (.ofNat data.length) ≠ .ok (list, 0) := by
  intro haccepted
  obtain ⟨block, _, hsize, hinside⟩ := h.inside list haccepted
  have hlen : list.len = log.list.len + .ofNat data.length := by
    rcases append_cases log.list data (.ofNat data.length) with
      ⟨_, heq⟩ | ⟨_, _, _, heq⟩ | ⟨_, _, _, _, heq⟩
    · rw [heq] at haccepted
      cases haccepted
    · rw [heq] at haccepted
      cases haccepted
    · rw [heq] at haccepted
      cases haccepted
      rfl
  have hpos : 0 < data.length := List.length_pos_iff.mpr hne
  rw [appendOffset, ← hlen] at hinside
  omega

variable {cap : UInt64}

theorem refuses_create_iff (hword : data.length < 2 ^ 64) :
    Refuses (listCreate cap) (.ofNat data.length) ↔
      0 < cap.toNat ∧ cap.toNat < data.length := by
  have hsize : (UInt64.ofNat data.length).toNat = data.length :=
    UInt64.toNat_ofNat_of_lt' hword
  have hsum : UInt64.ofNat data.length + (listCreate cap).len = UInt64.ofNat data.length :=
    UInt64.add_zero _
  rw [Refuses, hsum, gt_iff_lt, gt_iff_lt, UInt64.lt_iff_toNat_lt, UInt64.lt_iff_toNat_lt, hsize]
  rfl

theorem step_start_of_refuses (h : Refuses (listCreate cap) (.ofNat data.length)) :
    Log.step (Log.start cap) data = .ok (Log.start cap) := by
  have hrefused : listAppend (listCreate cap) data (.ofNat data.length) =
      .ok (listCreate cap, -1) := if_pos h
  simp only [Log.step, Log.start, hrefused, bind, Except.bind, pure, Except.pure]
  rfl

theorem correct_start_of_refuses (hword : data.length < 2 ^ 64)
    (h : Refuses (listCreate cap) (.ofNat data.length)) : Correct (Log.start cap) data := by
  have hrefused : listAppend (Log.start cap).list data (.ofNat data.length) =
      .ok ((Log.start cap).list, -1) := if_pos h
  refine ⟨?_, ?_, ?_⟩
  · refine iff_of_true ⟨_, hrefused⟩ ?_
    have hbounds := (refuses_create_iff hword).mp h
    simpa [Log.start, listCreate] using hbounds
  · intro list hlist
    rw [hrefused, Except.ok.injEq, Prod.mk.injEq] at hlist
    exact hlist.1.symm
  · intro list hlist
    rw [hrefused, Except.ok.injEq, Prod.mk.injEq] at hlist
    exact absurd hlist.2 (by decide)

theorem Correct.refuses_start (h : Correct (Log.start cap) data) (hne : data ≠ []) :
    Refuses (listCreate cap) (.ofNat data.length) := by
  rcases append_cases (Log.start cap).list data (.ofNat data.length) with
    ⟨hrefuses, _⟩ | ⟨_, _, hdata, _⟩ | ⟨_, _, _, _, heq⟩
  · exact hrefuses
  · exact absurd rfl hdata
  · exact absurd heq (h.not_accepted hne _)

variable {items : List (List UInt8)}

theorem refuses_of_correct (hne : ∀ item ∈ items, item ≠ [])
    (h : AlongM Log.step Correct (Log.start cap) items) :
    ∀ item ∈ items, Refuses (listCreate cap) (.ofNat item.length) := by
  induction items with
  | nil => simp
  | cons item items ih =>
      obtain ⟨hcorrect, htail⟩ := (alongM_cons _ _ _).mp h
      have hrefuses := hcorrect.refuses_start (hne item (by simp))
      have hrest := ih (fun other hother => hne other (by simp [hother]))
        (htail _ (step_start_of_refuses hrefuses))
      exact List.forall_mem_cons.mpr ⟨hrefuses, hrest⟩

theorem run_start_of_refuses (hword : ∀ item ∈ items, item.length < 2 ^ 64)
    (h : ∀ item ∈ items, Refuses (listCreate cap) (.ofNat item.length)) :
    AlongM Log.step Correct (Log.start cap) items ∧
      items.foldlM Log.step (Log.start cap) = .ok (Log.start cap) := by
  induction items with
  | nil => exact ⟨trivial, rfl⟩
  | cons item items ih =>
      have hstep := step_start_of_refuses (h item (by simp))
      obtain ⟨hsteps, hrest⟩ := ih (fun other hother => hword other (by simp [hother]))
        fun other hother => h other (by simp [hother])
      have hcorrect := correct_start_of_refuses (hword item (by simp)) (h item (by simp))
      refine ⟨(alongM_cons _ _ _).mpr ⟨hcorrect, fun log hlog => ?_⟩,
        foldlM_cons_ok.mpr ⟨_, hstep, hrest⟩⟩
      rw [hstep, Except.ok.injEq] at hlog
      rwa [← hlog]

end Append

/-- A run of appends of non-empty strings concatenates them if and only if it
appends nothing: there is a capacity and every string is longer than it. -/
theorem appends_concatenate_iff (cap : UInt64) (items : List (List UInt8))
    (hne : ∀ item ∈ items, item ≠ []) (htotal : items.flatten.length < 2 ^ 64) :
    Concatenates cap items ↔ ∀ item ∈ items, 0 < cap.toNat ∧ cap.toNat < item.length := by
  have hword : ∀ item ∈ items, item.length < 2 ^ 64 := by
    intro item hitem
    have hle := List.Sublist.length_le (List.sublist_flatten_of_mem hitem)
    omega
  constructor
  · intro h item hitem
    exact (refuses_create_iff (hword item hitem)).mp (refuses_of_correct hne h.steps item hitem)
  · intro h
    have hrun := run_start_of_refuses hword fun item hitem =>
      (refuses_create_iff (hword item hitem)).mpr (h item hitem)
    exact ⟨hrun.1, _, hrun.2, rfl, rfl⟩

theorem appends_concatenate_iff_refused :
    Concatenates 2 [[1, 2, 3], [4, 5, 6, 7]] ↔
      ∀ item ∈ ([[1, 2, 3], [4, 5, 6, 7]] : List (List UInt8)),
        0 < (2 : UInt64).toNat ∧ (2 : UInt64).toNat < item.length :=
  appends_concatenate_iff 2 [[1, 2, 3], [4, 5, 6, 7]] (by decide) (by decide)

/-- The four bytes of the first append of the tests are copied to the four bytes
behind their block. -/
theorem append_leaves_block :
    ¬∀ (cap : UInt64) (items : List (List UInt8)), (∀ item ∈ items, item ≠ []) →
      items.flatten.length < 2 ^ 64 → Concatenates cap items := by
  intro h
  have hsteps := (h 16 [[1, 0, 0, 0]] (by decide) (by decide)).steps
  have hrefuses := hsteps.1.refuses_start (by decide)
  revert hrefuses
  decide

end Doctrina.ByteList
