import Doctrina.Map.Delete
/-!
# Deleted keys that come back

A key can leave a second copy behind an emptied bucket.  After a deletion the
key is out of reach, and it stays so until its copy is uncovered: another key
is stored into the empty bucket where its lookup ended, and the lookup, going
on there, meets the copy.
-/

namespace Doctrina.Map

open Doctrina.Internal Doctrina.Lib.Execution Doctrina.Lib.Probing

section Operations

variable (hash : List UInt8 → UInt64 → UInt64)

/-- The key is reported as absent. -/
def Gone (self : MapT) (key : List UInt8) : Prop :=
  mapExists hash self key = 0 ∧
    ∀ size, mapGet hash self key (some size) = .ok (none, 0)

/-- A `mapSet` of `key` that returns 0. -/
def Rebinds (key : List UInt8) (self : MapT) : Op → Prop
  | .set other value => other = key ∧ (mapSet hash self other value).map Prod.snd = .ok 0
  | .del _ => False

instance (key : List UInt8) (self : MapT) : DecidablePred (Rebinds hash key self)
  | .set _ _ => inferInstanceAs (Decidable (_ ∧ _))
  | .del _ => .isFalse id

/-- Another key goes into an empty bucket, and a lookup of `key` that goes on
past this bucket reaches a bucket holding `key`. -/
def Resurfaces (key : List UInt8) (self : MapT) : Op → Prop
  | .set other _ => other ≠ key ∧ ∃ j, stop hash self other = some j ∧ self.bucket j = none ∧
      FoundPast (self.keys Bucket.bytes) key j (probes self.size (hash key SEED))
  | .del _ => False

variable {hash} {self : MapT} {key : List UInt8}

theorem gone_iff_not_holds : Gone hash self key ↔ ¬Holds hash self key := by
  constructor
  · intro h hholds
    have hone := mapExists_eq_one_iff.mpr hholds
    rw [h.1] at hone
    exact absurd hone (by decide)
  · exact fun h => ⟨mapExists_of_not_holds h, mapGet_of_not_holds h⟩

theorem gone_mapDel (hdel : (mapDel hash self key).2 = 0) :
    Gone hash (mapDel hash self key).1 key := by
  rw [gone_iff_not_holds]
  rcases mapDel_cases hash self key with ⟨_, heq⟩ | ⟨j, bucket, hstop, _, heq⟩
  · simp [heq] at hdel
  · rw [heq]
    exact not_holds_put_none_self hstop

theorem gone_set_iff {self' : MapT} {other value : List UInt8} (hgone : Gone hash self key)
    (hrebind : ¬Rebinds hash key self (.set other value))
    (hstep : step hash self (.set other value) = .ok self') :
    Gone hash self' key ↔ ¬Resurfaces hash key self (.set other value) := by
  rw [gone_iff_not_holds] at hgone ⊢
  rw [not_iff_not, Resurfaces]
  rcases mapSet_cases hash self other value with
    ⟨hstop, heq⟩ | ⟨j, hstop, hempty, heq⟩ | ⟨j, bucket, hstop, hbucket, heq⟩
  · rw [step, heq] at hstep
    cases hstep
    simp [hstop, hgone]
  · have hne : other ≠ key := by
      intro hother
      exact hrebind ⟨hother, by rw [heq]; rfl⟩
    rw [step, heq] at hstep
    cases hstep
    have hafter : Holds hash (self.put j (some (bucketNew other value))) key ↔
        FoundPast (self.keys Bucket.bytes) key j (probes self.size (hash key SEED)) := by
      rw [Holds, Table.keys_put (stop_lt hstop), Table.size_put, Option.map_some,
        bytes_bucketNew]
      exact found_fill_iff hne (Table.keys_eq_none_iff.mpr hempty)
    simp [hafter, hstop, hempty, hne]
  · rw [step, heq] at hstep
    obtain ⟨result, hresult, rfl⟩ := Except.map_eq_ok hstep
    obtain ⟨bucket', hupdate, rfl⟩ := Except.map_eq_ok hresult
    have hkeys := Table.keys_put_same (stop_lt hstop) hbucket (bucketUpdate_ok hupdate).1
    have hsame : Holds hash (self.put j (some bucket')) key ↔ Holds hash self key := by
      rw [Holds, hkeys, Table.size_put, Holds]
    simp [hsame, hgone, hstop, hbucket]

theorem gone_step_iff {self' : MapT} {op : Op} (hgone : Gone hash self key)
    (hrebind : ¬Rebinds hash key self op) (hstep : step hash self op = .ok self') :
    Gone hash self' key ↔ ¬Resurfaces hash key self op := by
  cases op with
  | set other value => exact gone_set_iff hgone hrebind hstep
  | del other =>
      cases hstep
      refine iff_of_true ?_ (fun h => h)
      rcases mapDel_cases hash self other with ⟨_, heq⟩ | ⟨j, bucket, hstop, hbucket, heq⟩
      · rwa [heq]
      · by_cases hne : other = key
        · subst hne
          exact gone_mapDel (by rw [heq])
        · rw [heq]
          rw [gone_iff_not_holds] at hgone ⊢
          exact fun h => hgone ((holds_put_none_iff hstop hbucket hne).mp h).1

variable (hash)

/-- After a deletion of `key` that returned 0, and through any run in which no
`mapSet` of `key` returns 0, the key is absent in every state the run passes
through if and only if no step of the run uncovers a copy of it. -/
theorem stays_gone_iff (self : MapT) (key : List UInt8) (ops : List Op)
    (hdel : (mapDel hash self key).2 = 0)
    (hrebind : AlongM (step hash) (fun self op => ¬Rebinds hash key self op)
      (mapDel hash self key).1 ops) :
    (∀ before after later, ops = before ++ after →
        before.foldlM (step hash) (mapDel hash self key).1 = .ok later →
          Gone hash later key) ↔
      AlongM (step hash) (fun self op => ¬Resurfaces hash key self op)
        (mapDel hash self key).1 ops := by
  refine stays_iff_alongM (fun self op self' => gone_step_iff) ?_ (gone_mapDel hdel) hrebind
  intro self op e hgone _ hfail
  cases op with
  | del other => exact fun h => h
  | set other value =>
      rintro ⟨_, j, hstop, hempty, _⟩
      rcases mapSet_cases hash self other value with
        ⟨_, heq⟩ | ⟨_, _, _, heq⟩ | ⟨i, bucket, histop, hbucket, _⟩
      · simp [step, heq, Except.map] at hfail
      · simp [step, heq, Except.map] at hfail
      · rw [hstop, Option.some.injEq] at histop
        rw [← histop, hempty] at hbucket
        cases hbucket

end Operations

theorem stays_gone_iff_collision :
    let self : MapT := ⟨2, [some (bucketNew [98] [2]), some (bucketNew [97] [1])], rfl⟩
    (∀ before after later, [Op.set [98] [3]] = before ++ after →
        before.foldlM (step Internal.xxh3) (mapDel Internal.xxh3 self [97]).1 =
          .ok later → Gone Internal.xxh3 later [97]) ↔
      AlongM (step Internal.xxh3)
        (fun self op => ¬Resurfaces Internal.xxh3 [97] self op)
        (mapDel Internal.xxh3 self [97]).1 [.set [98] [3]] :=
  stays_gone_iff Internal.xxh3 _ [97] [.set [98] [3]] (by decide +kernel)
    (by decide +kernel)

/-- `a`, `b` and `c` all start at bucket 1 of 2.  Stored again behind the hole
that `a` left, `b` has two copies; the deletion removes one, and storing `c`
uncovers the other. -/
theorem deleted_key_comes_back :
    ¬∀ (size : UInt64) (length : Nat) (ops : List Op) (self : MapT) (key : List UInt8)
        (more : List Op) (later : MapT),
      1 ≤ size → 0 < length → (∀ op ∈ ops, op.Uniform length) → key ≠ [] →
        ops.foldlM (step Internal.xxh3) (mapNew size) = .ok self →
          (mapDel Internal.xxh3 self key).2 = 0 → (∀ op ∈ more, op.Uniform length) →
            AlongM (step Internal.xxh3)
                (fun self op => ¬Rebinds Internal.xxh3 key self op)
                (mapDel Internal.xxh3 self key).1 more →
              more.foldlM (step Internal.xxh3) (mapDel Internal.xxh3 self key).1 =
                  .ok later →
                Gone Internal.xxh3 later key := by
  intro h
  have hgone := h 2 1 [.set [97] [1], .set [98] [2], .del [97], .set [98] [3]]
    ⟨2, [some (bucketNew [98] [2]), some (bucketNew [98] [3])], rfl⟩ [98]
    [.set [99] [4]] ⟨2, [some (bucketNew [98] [2]), some (bucketNew [99] [4])], rfl⟩
    (by decide) (by decide) (by decide) (by decide) (by decide +kernel)
    (by decide +kernel) (by decide) (by decide +kernel) (by decide +kernel)
  have hexists := hgone.1
  revert hexists
  decide +kernel

end Doctrina.Map
