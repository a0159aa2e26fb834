import Doctrina.Lib.Execution
import Doctrina.Trie.Prefixes
import Mathlib.Data.List.TakeWhile
/-!
# A trie through its calls

After any insertions of keys with bytes up to 254 the nodes are the prefixes of
the keys, and the ends of words are the keys.  So neither the order of the
insertions nor their number shows, and no search does.
-/

namespace Doctrina.Trie

open Doctrina.Lib.Execution

inductive Op
  | insert (key : List UInt8) (answers : List (Option Addr))
  | search (key : List UInt8)

/-- `calloc` has a node for each byte that needs one. -/
def Legal (root : Addr) (nodes : Store TrieNode) : Op → Prop
  | .insert key answers => IsKey key ∧ missing nodes root (word key) ≤ answers.length ∧
      answers.Nodup ∧ ∀ answer ∈ answers, Fresh nodes answer
  | .search key => IsKey key

def step (root : Addr) (nodes : Store TrieNode) : Op → Except Fault (Store TrieNode)
  | .insert key answers => trieInsert nodes (some root) key answers
  | .search key => (trieSearch nodes (some root) key).map fun _ => nodes

def Op.inserts : Op → Option (List UInt8)
  | .insert key _ => some (word key)
  | .search _ => none

def inserted (ops : List Op) : List (List UInt8) := ops.filterMap Op.inserts

/-- The nodes are the prefixes of the words, each at the end of one path; the
ends of words are marked, and the searches find the words. -/
structure Exact (nodes : Store TrieNode) (root : Addr) (words : List (List UInt8)) : Prop where
  node : ∀ p, (∃ a, nodeAt nodes root p = some a) ↔ p = [] ∨ ∃ k ∈ words, p <+: k
  single : ∀ p q a, nodeAt nodes root p = some a → nodeAt nodes root q = some a → p = q
  live : ∀ a, a ∈ nodes ↔ ∃ p, nodeAt nodes root p = some a
  eow : ∀ p a node, nodeAt nodes root p = some a → nodes.lookup a = some node →
    (node.eow = true ↔ p ∈ words)
  search : ∀ key, IsKey key →
    trieSearch nodes (some root) key = .ok (decide (word key ∈ words))

def view (nodes : Store TrieNode) (root : Addr) (p : List UInt8) : Option Bool :=
  (nodeAt nodes root p).bind fun a => (nodes.lookup a).map TrieNode.eow

/-- The calls on a new trie return, the trie is that of the words they insert,
and it is the same memory that the insertions alone come to. -/
structure RunsExactly (root : Addr) (ops : List Op) (nodes : Store TrieNode) : Prop where
  init : trieNew ∅ (some root) = .ok (created root, root)
  run : ops.foldlM (step root) (created root) = .ok nodes
  exact : Exact nodes root (inserted ops)
  searches : (ops.filter fun op => op.inserts.isSome).foldlM (step root) (created root) = .ok nodes

/-- The calls on two new tries return, each trie is that of its words, and if
the words are the same then so are the tries. -/
def HoldPrefixes (root root' : Addr) (ops ops' : List Op) : Prop :=
  ∃ nodes nodes', RunsExactly root ops nodes ∧ RunsExactly root' ops' nodes' ∧
    ((∀ k, k ∈ inserted ops ↔ k ∈ inserted ops') → view nodes root = view nodes' root')

section Words

theorem word_append {key : List UInt8} (hkey : 0 ∈ key) : ∃ tail, key = word key ++ 0 :: tail := by
  induction key with
  | nil => simp at hkey
  | cons byte key ih =>
      by_cases hbyte : byte = 0
      · exact ⟨key, by simp [word, hbyte]⟩
      · obtain ⟨tail, htail⟩ := ih (by simpa [Ne.symm hbyte] using hkey)
        refine ⟨tail, ?_⟩
        have hword : word (byte :: key) = byte :: word key := by simp [word, hbyte]
        rw [hword, List.cons_append, ← htail]

theorem ne_zero_of_mem_word {key : List UInt8} {byte : UInt8} (h : byte ∈ word key) :
    byte ≠ 0 := by
  have hbyte := List.mem_takeWhile_imp h
  simpa using hbyte

theorem IsKey.bytes {key : List UInt8} (h : IsKey key) :
    ∀ byte ∈ word key, byte ≠ 0 ∧ byte.toNat < NUM_CHILDREN :=
  fun byte hmem => ⟨ne_zero_of_mem_word hmem, h.2 byte hmem⟩

end Words

def prefixes (words : List (List UInt8)) : Set (List UInt8) := {p | p = [] ∨ ∃ k ∈ words, p <+: k}

section Runs

variable {root : Addr} {nodes : Store TrieNode} {words : List (List UInt8)}

/-- The trie that holds some words. -/
abbrev Spells (root : Addr) (words : List (List UInt8)) (nodes : Store TrieNode) : Prop :=
  Holds nodes root (prefixes words) {k | k ∈ words}

theorem spells_created (root : Addr) : Spells root [] (created root) := by
  have hpaths : prefixes [] = {[]} := by
    ext p
    simp [prefixes]
  have hwords : {k : List UInt8 | k ∈ []} = ∅ := by
    ext k
    simp
  rw [Spells, hpaths, hwords]
  exact holds_created root

theorem prefixes_concat (words : List (List UInt8)) (k : List UInt8) :
    prefixes (words ++ [k]) = prefixes words ∪ {p | p <+: k} := by
  ext p
  simp [prefixes, or_and_right, exists_or, or_assoc]

theorem setOf_concat (words : List (List UInt8)) (k : List UInt8) :
    {k' | k' ∈ words ++ [k]} = insert k {k' | k' ∈ words} := by
  ext k'
  simp [or_comm]

theorem step_insert (h : Spells root words nodes) {key : List UInt8}
    {answers : List (Option Addr)} (hlegal : Legal root nodes (.insert key answers)) :
    ∃ nodes', step root nodes (.insert key answers) = .ok nodes' ∧
      Spells root (words ++ [word key]) nodes' := by
  obtain ⟨hkey, hmissing, hnodup, hfresh⟩ := hlegal
  obtain ⟨tail, htail⟩ := word_append hkey.1
  have hroot : nodeAt nodes root [] = some root := rfl
  obtain ⟨nodes', a, hloop, hpath, hholds⟩ :=
    h.trieInsertLoop_eq hkey.bytes hroot hmissing hnodup hfresh tail
  rw [List.nil_append] at hpath hholds
  rw [← htail] at hloop
  obtain ⟨node, ha⟩ := hholds.lookup_of_nodeAt hpath
  refine ⟨nodes'.insert a (node.setEow true), ?_, ?_⟩
  · simp only [step, trieInsert, hloop, bind, Except.bind]
    exact Store.modify_eq ha _
  · rw [Spells, prefixes_concat, setOf_concat]
    exact hholds.mark hpath ha

theorem search_eq (h : Spells root words nodes) {key : List UInt8} (hkey : IsKey key) :
    trieSearch nodes (some root) key = .ok (decide (word key ∈ words)) := by
  obtain ⟨tail, htail⟩ := word_append hkey.1
  have hroot : nodeAt nodes root [] = some root := rfl
  obtain ⟨found, hsearch, hfound⟩ := h.trieSearch_eq hkey.bytes hroot tail
  rw [← htail] at hsearch
  rw [List.nil_append] at hfound
  have hdecide : found = decide (word key ∈ words) := by
    rw [Bool.eq_iff_iff, decide_eq_true_iff]
    exact hfound
  rw [hsearch, hdecide]

theorem spells_step (h : Spells root words nodes) {op : Op} (hlegal : Legal root nodes op) :
    ∃ nodes', step root nodes op = .ok nodes' ∧
      Spells root (words ++ op.inserts.toList) nodes' := by
  cases op with
  | insert key answers => exact step_insert h hlegal
  | search key =>
      refine ⟨nodes, ?_, ?_⟩
      · rw [step, search_eq h hlegal]
        rfl
      · rw [Op.inserts, Option.toList_none, List.append_nil]
        exact h

theorem foldl_inserts (words : List (List UInt8)) (ops : List Op) :
    ops.foldl (fun words op => words ++ op.inserts.toList) words = words ++ inserted ops := by
  induction ops generalizing words with
  | nil => rw [List.foldl_nil, inserted, List.filterMap_nil, List.append_nil]
  | cons op ops ih =>
      rw [List.foldl_cons, ih, List.append_assoc]
      congr 1
      cases op <;> rfl

/-- The searches of a run can be left out. -/
theorem foldlM_filter {ops : List Op} {nodes' : Store TrieNode}
    (hrun : ops.foldlM (step root) nodes = .ok nodes') :
    (ops.filter fun op => op.inserts.isSome).foldlM (step root) nodes = .ok nodes' := by
  induction ops generalizing nodes with
  | nil => exact hrun
  | cons op ops ih =>
      obtain ⟨next, hnext, hrest⟩ := foldlM_cons_ok.mp hrun
      cases op with
      | insert key answers =>
          rw [List.filter_cons_of_pos (by rfl)]
          exact foldlM_cons_ok.mpr ⟨next, hnext, ih hrest⟩
      | search key =>
          obtain ⟨found, _, rfl⟩ := Except.map_eq_ok hnext
          rw [List.filter_cons_of_neg (by simp [Op.inserts])]
          exact ih hrest

theorem Holds.exact (h : Spells root words nodes) : Exact nodes root words where
  node := h.path
  single := h.single
  live := h.live
  eow := h.eow
  search _ hkey := search_eq h hkey

theorem runs_exactly {ops : List Op}
    (hlegal : AlongM (step root) (Legal root) (created root) ops) :
    ∃ nodes, RunsExactly root ops nodes := by
  have hstep : ∀ words nodes op, Spells root words nodes → Legal root nodes op →
      ∃ nodes', step root nodes op = .ok nodes' ∧
        Spells root (words ++ op.inserts.toList) nodes' := fun _ _ _ h hop => spells_step h hop
  obtain ⟨nodes, hrun, h⟩ := simulation_foldlM hstep (spells_created root) hlegal
  rw [foldl_inserts, List.nil_append] at h
  exact ⟨nodes, rfl, hrun, h.exact, foldlM_filter hrun⟩

theorem Exact.view_eq (h : Exact nodes root words) {p : List UInt8} {a : Addr}
    (hp : nodeAt nodes root p = some a) : view nodes root p = some (decide (p ∈ words)) := by
  obtain ⟨node, ha⟩ := Finmap.mem_iff.mp ((h.live a).mpr ⟨p, hp⟩)
  have heow : node.eow = decide (p ∈ words) := by
    rw [Bool.eq_iff_iff, decide_eq_true_iff]
    exact h.eow p a node hp ha
  rw [view, hp, Option.bind_some, ha, Option.map_some, heow]

theorem Exact.view_congr (h : Exact nodes root words) {nodes' : Store TrieNode} {root' : Addr}
    {words' : List (List UInt8)} (h' : Exact nodes' root' words')
    (hsame : ∀ k, k ∈ words ↔ k ∈ words') : view nodes root = view nodes' root' := by
  funext p
  have hpath : (∃ a, nodeAt nodes root p = some a) ↔ ∃ a, nodeAt nodes' root' p = some a := by
    rw [h.node, h'.node]
    simp only [hsame]
  cases hp : nodeAt nodes root p with
  | none =>
      have hp' : nodeAt nodes' root' p = none := by
        rw [Option.eq_none_iff_forall_ne_some]
        intro a ha
        obtain ⟨b, hb⟩ := hpath.mpr ⟨a, ha⟩
        rw [hp] at hb
        cases hb
      rw [view, hp, view, hp', Option.bind_none, Option.bind_none]
  | some a =>
      obtain ⟨a', hp'⟩ := hpath.mp ⟨a, hp⟩
      rw [h.view_eq hp, h'.view_eq hp', decide_eq_decide.mpr (hsame p)]

/-- After insertions of any keys a trie has the prefixes of the keys as nodes
and the keys as words, and two tries with the same keys are the same. -/
theorem tries_hold_prefixes {root' : Addr} {ops ops' : List Op}
    (hlegal : AlongM (step root) (Legal root) (created root) ops)
    (hlegal' : AlongM (step root') (Legal root') (created root') ops') :
    HoldPrefixes root root' ops ops' := by
  obtain ⟨nodes, hrun⟩ := runs_exactly hlegal
  obtain ⟨nodes', hrun'⟩ := runs_exactly hlegal'
  exact ⟨nodes, nodes', hrun, hrun', hrun.exact.view_congr hrun'.exact⟩

end Runs

instance (key : List UInt8) : Decidable (IsKey key) :=
  @instDecidableAnd _ _ _ (List.decidableBAll _ (word key))

instance (nodes : Store TrieNode) : DecidablePred (Fresh nodes)
  | none => .isFalse id
  | some a => inferInstanceAs (Decidable (a ∉ nodes))

instance (root : Addr) (nodes : Store TrieNode) : DecidablePred (Legal root nodes)
  | .insert key answers =>
      @instDecidableAnd (IsKey key) _ _ <| @instDecidableAnd _ _ _ <|
        @instDecidableAnd _ _ (List.nodupDecidable answers) (List.decidableBAll _ answers)
  | .search key => inferInstanceAs (Decidable (IsKey key))

theorem tries_hold_prefixes_te :
    HoldPrefixes 1 9
      [.insert [116, 101, 0] [some 2, some 3], .search [116, 0],
        .insert [116, 101, 115, 116, 0] [some 4, some 5], .insert [0] []]
      [.insert [0] [], .insert [116, 101, 115, 116, 0] [some 4, some 3, some 2, some 1],
        .insert [116, 101, 0] [], .insert [116, 101, 0, 7] []] :=
  tries_hold_prefixes (by decide +kernel) (by decide +kernel)

end Doctrina.Trie
