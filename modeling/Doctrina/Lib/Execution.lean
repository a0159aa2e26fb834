import Mathlib.Data.List.Basic
import Mathlib.Order.Basic
/-!
# Runs of a transition function

A machine is a function `step : σ → ι → σ`; a run of it is `List.foldl step`.
`Along` says that every step of a run is taken in a state, and on an input,
that satisfies a predicate.  The rules below carry an invariant over a whole
run and exchange one step predicate for another under an invariant.

A machine that can fail is a function `step : σ → ι → Except ε σ`, its run is
`List.foldlM step`, and `AlongM` is the corresponding predicate; a run that
fails has no further steps.
-/

namespace Doctrina.Lib.Execution

variable {σ ι : Type*} {step : σ → ι → σ} {P Q : σ → ι → Prop} {Inv : σ → Prop}

/-- Every step of the run of `ops` from `s` is taken where `P` holds. -/
def Along (step : σ → ι → σ) (P : σ → ι → Prop) : σ → List ι → Prop
  | _, [] => True
  | s, op :: ops => P s op ∧ Along step P (step s op) ops

instance decidableAlong [∀ s op, Decidable (P s op)] :
    ∀ s ops, Decidable (Along step P s ops)
  | _, [] => .isTrue trivial
  | s, op :: ops =>
      @instDecidableAnd _ _ _ (decidableAlong (step s op) ops)

@[simp] theorem along_nil (s : σ) : Along step P s [] := trivial

@[simp] theorem along_cons (s : σ) (op : ι) (ops : List ι) :
    Along step P s (op :: ops) ↔ P s op ∧ Along step P (step s op) ops := Iff.rfl

theorem along_append (s : σ) (ops ops' : List ι) :
    Along step P s (ops ++ ops') ↔
      Along step P s ops ∧ Along step P (ops.foldl step s) ops' := by
  induction ops generalizing s with
  | nil => simp
  | cons op ops ih =>
      simp only [List.cons_append, along_cons, List.foldl_cons, ih]
      exact and_assoc.symm

theorem along_imp (himp : ∀ s op, P s op → Q s op) {s : σ} {ops : List ι}
    (h : Along step P s ops) : Along step Q s ops := by
  induction ops generalizing s with
  | nil => trivial
  | cons op ops ih => exact ⟨himp s op h.1, ih h.2⟩

theorem along_of_forall {R : ι → Prop} {s : σ} {ops : List ι} (h : ∀ op ∈ ops, R op) :
    Along step (fun _ op => R op) s ops := by
  induction ops generalizing s with
  | nil => trivial
  | cons op ops ih => exact ⟨h op (by simp), ih fun op' hop' => h op' (by simp [hop'])⟩

theorem along_and_forall {R : ι → Prop} {s : σ} {ops : List ι} (h : Along step P s ops)
    (hops : ∀ op ∈ ops, R op) : Along step (fun s op => R op ∧ P s op) s ops := by
  induction ops generalizing s with
  | nil => trivial
  | cons op ops ih =>
      exact ⟨⟨hops op (by simp), h.1⟩, ih h.2 fun op' hop' => hops op' (by simp [hop'])⟩

theorem along_and {s : σ} {ops : List ι} (h : Along step P s ops) (h' : Along step Q s ops) :
    Along step (fun s op => P s op ∧ Q s op) s ops := by
  induction ops generalizing s with
  | nil => trivial
  | cons op ops ih => exact ⟨⟨h.1, h'.1⟩, ih h.2 h'.2⟩

theorem along_of_append {s : σ} {ops ops' : List ι} (h : Along step P s (ops ++ ops')) :
    Along step P s ops :=
  ((along_append s ops ops').mp h).1

/-- The invariant rule: what one step preserves where `P` holds, a run whose
steps are all taken where `P` holds preserves. -/
theorem invariant_foldl
    (hstep : ∀ s op, Inv s → P s op → Inv (step s op)) {s : σ} {ops : List ι}
    (hinit : Inv s) (h : Along step P s ops) : Inv (ops.foldl step s) := by
  induction ops generalizing s with
  | nil => exact hinit
  | cons op ops ih => exact ih (hstep s op hinit h.1) h.2

theorem along_mono
    (hstep : ∀ s op, Inv s → P s op → Inv (step s op))
    (himp : ∀ s op, Inv s → P s op → Q s op) {s : σ} {ops : List ι}
    (hinit : Inv s) (h : Along step P s ops) : Along step Q s ops := by
  induction ops generalizing s with
  | nil => trivial
  | cons op ops ih =>
      exact ⟨himp s op hinit h.1, ih (hstep s op hinit h.1) h.2⟩

theorem along_congr
    (hstep : ∀ s op, Inv s → P s op → Inv (step s op))
    (hiff : ∀ s op, Inv s → (P s op ↔ Q s op)) {s : σ} {ops : List ι}
    (hinit : Inv s) : Along step P s ops ↔ Along step Q s ops := by
  constructor
  · exact along_mono hstep (fun s op hs hp => (hiff s op hs).mp hp) hinit
  · have hstep' : ∀ s op, Inv s → Q s op → Inv (step s op) := fun s op hs hq =>
      hstep s op hs ((hiff s op hs).mpr hq)
    exact along_mono hstep' (fun s op hs hq => (hiff s op hs).mpr hq) hinit

/-! ## Machines that can fail -/

section Fallible

variable {ε : Type*} {stepM : σ → ι → Except ε σ}

/-- Every step that the run of `ops` from `s` comes to is taken where `P`
holds. -/
def AlongM (stepM : σ → ι → Except ε σ) (P : σ → ι → Prop) : σ → List ι → Prop
  | _, [] => True
  | s, op :: ops =>
      P s op ∧
        match stepM s op with
        | .ok s' => AlongM stepM P s' ops
        | .error _ => True

instance decidableAlongM [∀ s op, Decidable (P s op)] :
    ∀ s ops, Decidable (AlongM stepM P s ops)
  | _, [] => .isTrue trivial
  | s, op :: ops =>
      @instDecidableAnd _ _ _
        (match stepM s op with
          | .ok s' => decidableAlongM s' ops
          | .error _ => .isTrue trivial)

@[simp] theorem alongM_nil (s : σ) : AlongM stepM P s [] := trivial

theorem alongM_cons (s : σ) (op : ι) (ops : List ι) :
    AlongM stepM P s (op :: ops) ↔
      P s op ∧ ∀ s', stepM s op = .ok s' → AlongM stepM P s' ops := by
  refine and_congr_right fun _ => ?_
  cases h : stepM s op with
  | error e => simp
  | ok s' => simp

theorem foldlM_cons_ok {s t : σ} {op : ι} {ops : List ι} :
    (op :: ops).foldlM stepM s = .ok t ↔
      ∃ s', stepM s op = .ok s' ∧ ops.foldlM stepM s' = .ok t := by
  rw [List.foldlM_cons]
  cases h : stepM s op with
  | error e => simp [bind, Except.bind]
  | ok s' => simp [bind, Except.bind]

theorem foldlM_append_ok {s t : σ} {ops ops' : List ι} :
    (ops ++ ops').foldlM stepM s = .ok t ↔
      ∃ s', ops.foldlM stepM s = .ok s' ∧ ops'.foldlM stepM s' = .ok t := by
  rw [List.foldlM_append]
  cases h : ops.foldlM stepM s with
  | error e => simp [bind, Except.bind]
  | ok s' => simp [bind, Except.bind]

theorem alongM_append {s : σ} {ops ops' : List ι} :
    AlongM stepM P s (ops ++ ops') ↔
      AlongM stepM P s ops ∧
        ∀ s', ops.foldlM stepM s = .ok s' → AlongM stepM P s' ops' := by
  induction ops generalizing s with
  | nil =>
      refine ⟨fun h => ⟨trivial, fun s' hs' => ?_⟩, fun h => h.2 s rfl⟩
      cases hs'
      exact h
  | cons op ops ih =>
      rw [List.cons_append, alongM_cons, alongM_cons]
      constructor
      · intro h
        refine ⟨⟨h.1, fun s' hs' => (ih.mp (h.2 s' hs')).1⟩, fun t ht => ?_⟩
        obtain ⟨s', hs', hrun⟩ := foldlM_cons_ok.mp ht
        exact (ih.mp (h.2 s' hs')).2 t hrun
      · intro h
        refine ⟨h.1.1, fun s' hs' => ih.mpr ⟨h.1.2 s' hs', fun t ht => ?_⟩⟩
        exact h.2 t (foldlM_cons_ok.mpr ⟨s', hs', ht⟩)

/-- The progress rule: where no step fails and each preserves the invariant, no
run fails. -/
theorem progress_foldlM
    (hstep : ∀ s op, Inv s → P s op → ∃ s', stepM s op = .ok s' ∧ Inv s') {s : σ}
    {ops : List ι} (hinit : Inv s) (h : AlongM stepM P s ops) :
    ∃ t, ops.foldlM stepM s = .ok t ∧ Inv t := by
  induction ops generalizing s with
  | nil => exact ⟨s, rfl, hinit⟩
  | cons op ops ih =>
      obtain ⟨hp, htail⟩ := (alongM_cons s op ops).mp h
      obtain ⟨s', hs', hinv⟩ := hstep s op hinit hp
      obtain ⟨t, hrun, ht⟩ := ih hinv (htail s' hs')
      exact ⟨t, foldlM_cons_ok.mpr ⟨s', hs', hrun⟩, ht⟩

theorem invariant_foldlM (hstep : ∀ s op s', Inv s → stepM s op = .ok s' → Inv s') {s t : σ}
    {ops : List ι} (hinit : Inv s) (hrun : ops.foldlM stepM s = .ok t) : Inv t := by
  induction ops generalizing s with
  | nil =>
      cases hrun
      exact hinit
  | cons op ops ih =>
      obtain ⟨s', hs', hrest⟩ := foldlM_cons_ok.mp hrun
      exact ih (hstep s op s' hinit hs') hrest

theorem alongM_of_forall {R : ι → Prop} {s : σ} {ops : List ι} (h : ∀ op ∈ ops, R op) :
    AlongM stepM (fun _ op => R op) s ops := by
  induction ops generalizing s with
  | nil => trivial
  | cons op ops ih =>
      rw [alongM_cons]
      exact ⟨h op (by simp), fun s' _ => ih fun op' hop' => h op' (by simp [hop'])⟩

/-- The simulation rule: where each step of a machine is matched by one of a
machine that can fail, so is a run, and it does not fail. -/
theorem simulation_foldlM {τ : Type*} {step' : τ → ι → τ} {Sim : τ → σ → Prop}
    (hstep : ∀ t s op, Sim t s → P s op → ∃ s', stepM s op = .ok s' ∧ Sim (step' t op) s')
    {t : τ} {s : σ} {ops : List ι} (hinit : Sim t s) (h : AlongM stepM P s ops) :
    ∃ s', ops.foldlM stepM s = .ok s' ∧ Sim (ops.foldl step' t) s' := by
  induction ops generalizing t s with
  | nil => exact ⟨s, rfl, hinit⟩
  | cons op ops ih =>
      obtain ⟨hp, htail⟩ := (alongM_cons s op ops).mp h
      obtain ⟨s', hs', hsim⟩ := hstep t s op hinit hp
      obtain ⟨u, hrun, hu⟩ := ih hsim (htail s' hs')
      exact ⟨u, foldlM_cons_ok.mpr ⟨s', hs', hrun⟩, hu⟩

/-- Both fail in the same way, or neither fails and the results are related. -/
inductive Matched {ε τ : Type*} (Sim : τ → σ → Prop) : Except ε τ → Except ε σ → Prop
  | ok {t : τ} {s : σ} (h : Sim t s) : Matched Sim (.ok t) (.ok s)
  | error (e : ε) : Matched Sim (.error e) (.error e)

/-- The refinement rule: where the steps of two machines that can fail match,
so do their runs. -/
theorem matched_foldlM {τ : Type*} {stepM' : τ → ι → Except ε τ} {Sim : τ → σ → Prop}
    (hstep : ∀ t s op, Sim t s → P s op → Matched Sim (stepM' t op) (stepM s op))
    {t : τ} {s : σ} {ops : List ι} (hinit : Sim t s) (h : AlongM stepM P s ops) :
    Matched Sim (ops.foldlM stepM' t) (ops.foldlM stepM s) := by
  induction ops generalizing t s with
  | nil => exact .ok hinit
  | cons op ops ih =>
      obtain ⟨hp, htail⟩ := (alongM_cons s op ops).mp h
      have hmatched := hstep t s op hinit hp
      rw [List.foldlM_cons, List.foldlM_cons]
      cases ht : stepM' t op with
      | error e =>
          rw [ht] at hmatched
          cases hs : stepM s op with
          | error e' =>
              rw [hs] at hmatched
              cases hmatched
              exact .error e
          | ok s' =>
              rw [hs] at hmatched
              cases hmatched
      | ok t' =>
          rw [ht] at hmatched
          cases hs : stepM s op with
          | error e' =>
              rw [hs] at hmatched
              cases hmatched
          | ok s' =>
              rw [hs] at hmatched
              cases hmatched with
              | ok hsim => exact ih hsim (htail s' hs)

theorem Matched.exists_ok {ε τ : Type*} {Sim : τ → σ → Prop} {x : Except ε τ} {s : σ}
    (h : Matched Sim x (.ok s)) : ∃ t, x = .ok t ∧ Sim t s := by
  cases h with
  | ok hsim => exact ⟨_, rfl, hsim⟩

theorem Matched.of_ok {ε τ : Type*} {Sim : τ → σ → Prop} {t : τ} {y : Except ε σ}
    (h : Matched Sim (.ok t) y) : ∃ s, y = .ok s ∧ Sim t s := by
  cases h with
  | ok hsim => exact ⟨_, rfl, hsim⟩

theorem Matched.of_error {ε τ : Type*} {Sim : τ → σ → Prop} {e : ε} {y : Except ε σ}
    (h : Matched Sim (.error e) y) : y = .error e := by
  cases h
  rfl

/-- A machine that can fail and one that cannot, side by side. -/
theorem foldlM_beside {ε τ : Type*} (stepM : σ → ι → Except ε σ) (step : τ → ι → τ) (s : σ) (t : τ)
    (ops : List ι) :
    ops.foldlM (fun st op => (stepM st.1 op).map fun s' => (s', step st.2 op)) (s, t) =
      (ops.foldlM stepM s).map fun s' => (s', ops.foldl step t) := by
  induction ops generalizing s t with
  | nil => rfl
  | cons op ops ih =>
      rw [List.foldlM_cons, List.foldlM_cons, List.foldl_cons]
      cases stepM s op with
      | error e => rfl
      | ok s' => exact ih s' (step t op)

theorem alongM_congr {s : σ} {ops : List ι}
    (hiff : ∀ s, ∀ op ∈ ops, (P s op ↔ Q s op)) :
    AlongM stepM P s ops ↔ AlongM stepM Q s ops := by
  induction ops generalizing s with
  | nil => exact Iff.rfl
  | cons op ops ih =>
      rw [alongM_cons, alongM_cons, hiff s op (by simp)]
      refine and_congr_right fun _ => forall_congr' fun s' => imp_congr_right fun _ => ih ?_
      exact fun s op' hop' => hiff s op' (by simp [hop'])

/-- A property that an invariant gives is true through a run exactly if every
step meets `Q`, where a step that meets `Q` keeps the invariant, and one that
does not breaks the property at once. -/
theorem shows_iff_alongM {Good : σ → Prop} (hgood : ∀ s, Inv s → Good s)
    (hkeep : ∀ s op s', Inv s → P s op → Q s op → stepM s op = .ok s' → Inv s')
    (hbreak : ∀ s op s', Inv s → P s op → stepM s op = .ok s' → Good s' → Q s op)
    (hfail : ∀ s op e, Inv s → P s op → stepM s op = .error e → Q s op)
    {s : σ} {ops : List ι} (hinit : Inv s) (h : AlongM stepM P s ops) :
    (∀ before after t, ops = before ++ after → before.foldlM stepM s = .ok t → Good t) ↔
      AlongM stepM Q s ops := by
  induction ops generalizing s with
  | nil =>
      refine iff_of_true ?_ trivial
      rintro before after t hnil hrun
      obtain ⟨rfl, -⟩ := List.append_eq_nil_iff.mp hnil.symm
      cases hrun
      exact hgood s hinit
  | cons op ops ih =>
      obtain ⟨hp, htail⟩ := (alongM_cons s op ops).mp h
      rw [alongM_cons]
      constructor
      · intro hshown
        have hq : Q s op := by
          cases hs' : stepM s op with
          | error e => exact hfail s op e hinit hp hs'
          | ok s' =>
              refine hbreak s op s' hinit hp hs' ?_
              exact hshown [op] ops s' rfl (foldlM_cons_ok.mpr ⟨s', hs', rfl⟩)
        refine ⟨hq, fun s' hs' => ?_⟩
        refine (ih (hkeep s op s' hinit hp hq hs') (htail s' hs')).mp ?_
        rintro before after t rfl hrun
        exact hshown (op :: before) after t rfl (foldlM_cons_ok.mpr ⟨s', hs', hrun⟩)
      · rintro ⟨hq, hqtail⟩ before after t hsplit hrun
        cases before with
        | nil =>
            cases hrun
            exact hgood s hinit
        | cons op' before =>
            obtain ⟨rfl, rfl⟩ := List.cons_eq_cons.mp hsplit
            obtain ⟨s', hs', hrun'⟩ := foldlM_cons_ok.mp hrun
            have hnext := hkeep s op s' hinit hp hq hs'
            exact (ih hnext (htail s' hs')).mpr (hqtail s' hs') before after t rfl hrun'

theorem stays_iff_alongM {Good : σ → Prop}
    (hstep : ∀ s op s', Good s → P s op → stepM s op = .ok s' → (Good s' ↔ Q s op))
    (hfail : ∀ s op e, Good s → P s op → stepM s op = .error e → Q s op)
    {s : σ} {ops : List ι} (hinit : Good s) (h : AlongM stepM P s ops) :
    (∀ before after t, ops = before ++ after → before.foldlM stepM s = .ok t → Good t) ↔
      AlongM stepM Q s ops :=
  shows_iff_alongM (fun _ hs => hs)
    (fun s op s' hs hp hq hs' => (hstep s op s' hs hp hs').mpr hq)
    (fun s op s' hs hp hs' hgood => (hstep s op s' hs hp hs').mp hgood) hfail hinit h

end Fallible

/-! ## Machines that cannot fail, as machines that can -/

theorem foldlM_ok {ε : Type*} (s : σ) (ops : List ι) :
    ops.foldlM (fun s op => (.ok (step s op) : Except ε σ)) s = .ok (ops.foldl step s) := by
  induction ops generalizing s with
  | nil => rfl
  | cons op ops ih => exact ih (step s op)

theorem alongM_ok {ε : Type*} {s : σ} {ops : List ι} :
    AlongM (fun s op => (.ok (step s op) : Except ε σ)) P s ops ↔ Along step P s ops := by
  induction ops generalizing s with
  | nil => exact Iff.rfl
  | cons op ops ih => exact and_congr_right fun _ => ih

theorem shows_iff_along {Good : σ → Prop} (hgood : ∀ s, Inv s → Good s)
    (hkeep : ∀ s op, Inv s → P s op → Q s op → Inv (step s op))
    (hbreak : ∀ s op, Inv s → P s op → Good (step s op) → Q s op)
    {s : σ} {ops : List ι} (hinit : Inv s) (h : Along step P s ops) :
    (∀ before after, ops = before ++ after → Good (before.foldl step s)) ↔
      Along step Q s ops := by
  let stepM : σ → ι → Except Empty σ := fun s op => .ok (step s op)
  have hshows : (∀ before after t, ops = before ++ after →
      before.foldlM stepM s = .ok t → Good t) ↔ AlongM stepM Q s ops :=
    shows_iff_alongM hgood
      (fun s op s' hs hp hq hs' => Except.ok.inj hs' ▸ hkeep s op hs hp hq)
      (fun s op s' hs hp hs' hnext => hbreak s op hs hp (Except.ok.inj hs' ▸ hnext))
      (fun _ _ e _ _ _ => e.elim) hinit (alongM_ok.mpr h)
  have halong : AlongM stepM Q s ops ↔ Along step Q s ops := alongM_ok
  rw [← halong, ← hshows]
  refine forall_congr' fun before => forall_congr' fun after => ?_
  simp only [stepM, foldlM_ok, Except.ok.injEq]
  exact ⟨fun hnow t hsplit ht => ht ▸ hnow hsplit, fun hnow hsplit => hnow _ hsplit rfl⟩

end Doctrina.Lib.Execution
