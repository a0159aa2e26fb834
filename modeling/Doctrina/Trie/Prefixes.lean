import Doctrina.Lib.Walk
import Doctrina.Trie.Basic
import Mathlib.Data.Set.Insert
/-!
# A trie holds the prefixes of its keys

An insertion adds the prefixes of its key to the paths that have a node, each
at the end of one path from the root, and the key to those at which a word
ends.  A search finds the words.
-/

namespace Doctrina.Trie

open Doctrina.Lib.Walk

/-- The bytes of a key before the NUL. -/
def word (key : List UInt8) : List UInt8 := key.takeWhile (· ≠ 0)

/-- The key ends with NUL, and its other bytes are indices of children. -/
def IsKey (key : List UInt8) : Prop :=
  0 ∈ key ∧ ∀ byte ∈ word key, byte.toNat < NUM_CHILDREN

/-- The node that a child pointer of a node leads to. -/
def edge (nodes : Store TrieNode) (a : Addr) (byte : UInt8) : Option Addr :=
  (nodes.lookup a).bind fun node => node.children[byte.toNat]?.join

def nodeAt (nodes : Store TrieNode) (root : Addr) (path : List UInt8) : Option Addr :=
  walk (edge nodes) root path

/-- How many bytes of a word have no node yet. -/
def missing (nodes : Store TrieNode) : Addr → List UInt8 → Nat
  | _, [] => 0
  | a, byte :: rest =>
      match edge nodes a byte with
      | none => rest.length + 1
      | some b => missing nodes b rest

/-- An answer of `calloc` that is neither NULL nor live. -/
def Fresh (nodes : Store TrieNode) : Option Addr → Prop
  | none => False
  | some a => a ∉ nodes

/-- The memory after `trieNew`. -/
def created (root : Addr) : Store TrieNode := (∅ : Store TrieNode).insert root .zero

/-- The memory after a new node `b` has been linked to below the node at `a`. -/
def linked (nodes : Store TrieNode) (a : Addr) (node : TrieNode) (byte : UInt8) (b : Addr) :
    Store TrieNode :=
  (nodes.insert b .zero).insert a (node.setChild byte.toNat (some b))

/-- The paths that have a node, and the paths at which a word ends. -/
structure Holds (nodes : Store TrieNode) (root : Addr) (paths words : Set (List UInt8)) :
    Prop where
  path : ∀ p, (∃ a, nodeAt nodes root p = some a) ↔ p ∈ paths
  single : Unshared (edge nodes) root
  live : ∀ a, a ∈ nodes ↔ ∃ p, nodeAt nodes root p = some a
  eow : ∀ p a node, nodeAt nodes root p = some a → nodes.lookup a = some node →
    (node.eow = true ↔ p ∈ words)
  words_subset : words ⊆ paths

section Edges

variable {nodes : Store TrieNode} {root a b : Addr} {node : TrieNode} {byte : UInt8}

theorem edge_eq (h : nodes.lookup a = some node) (byte : UInt8) :
    edge nodes a byte = node.children[byte.toNat]?.join := by
  rw [edge, h, Option.bind_some]

theorem edge_dead (h : a ∉ nodes) (byte : UInt8) : edge nodes a byte = none := by
  rw [edge, Finmap.lookup_eq_none.mpr h, Option.bind_none]

theorem childAt_eq (h : nodes.lookup a = some node) (hbyte : byte.toNat < NUM_CHILDREN) :
    childAt nodes (some a) byte.toNat = .ok (edge nodes a byte) := by
  have hchild : node.children[byte.toNat]? = some node.children[byte.toNat] :=
    Vector.getElem?_eq_getElem hbyte
  rw [edge_eq h, hchild]
  simp only [childAt, Store.load_eq h, hchild, bind, Except.bind]
  rfl

theorem zero_join (byte : UInt8) : TrieNode.zero.children[byte.toNat]?.join = none := by
  by_cases h : byte.toNat < NUM_CHILDREN
  · rw [zero_children h]
    rfl
  · rw [Vector.getElem?_eq_none (by omega)]
    rfl

theorem edge_setEow (h : nodes.lookup a = some node) (eow : Bool) :
    edge (nodes.insert a (node.setEow eow)) = edge nodes := by
  funext c byte
  rw [edge, Store.lookup_insert_eq]
  split
  · next heq => rw [heq, Option.bind_some, setEow_children, edge_eq h]
  · rfl

theorem edge_created (a : Addr) (byte : UInt8) : edge (created root) a byte = none := by
  rw [edge, created, Store.lookup_insert_eq]
  split
  · rw [Option.bind_some]
    exact zero_join byte
  · rw [Finmap.lookup_empty, Option.bind_none]

theorem mem_linked {c : Addr} :
    c ∈ linked nodes a node byte b ↔ c = a ∨ c = b ∨ c ∈ nodes := by
  rw [linked, Finmap.mem_insert, Finmap.mem_insert]

theorem edge_linked (ha : nodes.lookup a = some node) (hb : b ∉ nodes)
    (hbyte : byte.toNat < NUM_CHILDREN) (c : Addr) (byte' : UInt8) :
    edge (linked nodes a node byte b) c byte' =
      if c = a ∧ byte' = byte then some b else edge nodes c byte' := by
  rw [edge, linked, Store.lookup_insert_eq]
  by_cases hc : c = a
  · subst hc
    rw [if_pos rfl, Option.bind_some, setChild_children hbyte]
    by_cases heq : byte' = byte
    · rw [if_pos (congrArg UInt8.toNat heq), if_pos ⟨rfl, heq⟩]
      rfl
    · have hne : byte'.toNat ≠ byte.toNat := fun h => heq (UInt8.toNat_inj.mp h)
      rw [if_neg hne, if_neg fun h => heq h.2, edge_eq ha]
  · rw [if_neg hc, if_neg fun h => hc h.1, Store.lookup_insert_eq]
    by_cases hcb : c = b
    · rw [if_pos hcb, Option.bind_some, zero_join, hcb, edge_dead hb]
    · rw [if_neg hcb, edge]

theorem fresh_linked {answers : List (Option Addr)} (hlive : a ∈ nodes)
    (hnodup : (some b :: answers).Nodup)
    (hfresh : ∀ answer ∈ some b :: answers, Fresh nodes answer) :
    ∀ answer ∈ answers, Fresh (linked nodes a node byte b) answer := by
  intro answer hmem
  have hold := hfresh answer (List.mem_cons_of_mem _ hmem)
  cases answer with
  | none => exact hold
  | some c =>
      have hcb : c ≠ b := fun heq => (List.nodup_cons.mp hnodup).1 (heq ▸ hmem)
      have hca : c ≠ a := fun heq => hold (heq ▸ hlive)
      rw [Fresh, mem_linked]
      exact not_or_intro hca (not_or_intro hcb hold)

theorem trieInsertLoop_child (ha : nodes.lookup a = some node) (hbyte : byte ≠ 0)
    (hlt : byte.toNat < NUM_CHILDREN) (hedge : edge nodes a byte = some b) (key : List UInt8)
    (answers : List (Option Addr)) :
    trieInsertLoop nodes (some a) (byte :: key) answers =
      trieInsertLoop nodes (some b) key answers := by
  rw [trieInsertLoop, if_neg hbyte]
  simp only [childAt_eq ha hlt, hedge, bind, Except.bind]

theorem trieInsertLoop_vacant (ha : nodes.lookup a = some node) (hbyte : byte ≠ 0)
    (hlt : byte.toNat < NUM_CHILDREN) (hedge : edge nodes a byte = none) (hb : b ∉ nodes)
    (key : List UInt8) (answers : List (Option Addr)) :
    trieInsertLoop nodes (some a) (byte :: key) (some b :: answers) =
      trieInsertLoop (linked nodes a node byte b) (some b) key answers := by
  have hab : a ≠ b := fun heq => hb (heq ▸ Finmap.mem_of_lookup_eq_some ha)
  have hparent : (nodes.insert b .zero).lookup a = some node := by
    rw [Store.lookup_insert_eq, if_neg hab, ha]
  have hmodify : Store.modify (nodes.insert b TrieNode.zero) (some a)
      (TrieNode.setChild byte.toNat (some b)) = .ok (linked nodes a node byte b) :=
    Store.modify_eq hparent _
  have hlinked : (linked nodes a node byte b).lookup a =
      some (node.setChild byte.toNat (some b)) := Finmap.lookup_insert _
  have hchild : childAt (linked nodes a node byte b) (some a) byte.toNat = .ok (some b) := by
    rw [childAt_eq hlinked hlt, edge_linked ha hb hlt, if_pos ⟨rfl, rfl⟩]
  rw [trieInsertLoop, if_neg hbyte]
  simp only [childAt_eq ha hlt, hedge, List.headD_cons, trieNodeNew, hmodify, hchild,
    List.tail_cons, bind, Except.bind]

theorem missing_le (nodes : Store TrieNode) (a : Addr) (rest : List UInt8) :
    missing nodes a rest ≤ rest.length := by
  induction rest generalizing a with
  | nil => exact Nat.le_refl 0
  | cons byte rest ih =>
      rw [missing, List.length_cons]
      split
      · exact Nat.le_refl _
      · next b _ => exact Nat.le_succ_of_le (ih b)

end Edges

theorem mem_created {root a : Addr} : a ∈ created root ↔ a = root := by
  rw [created, Finmap.mem_insert]
  exact or_iff_left Finmap.notMem_empty

theorem holds_created (root : Addr) : Holds (created root) root {[]} ∅ := by
  have hwalk : ∀ byte rest, nodeAt (created root) root (byte :: rest) = none := by
    intro byte rest
    rw [nodeAt, walk_cons, edge_created, Option.bind_none]
  have hpath : ∀ p a, nodeAt (created root) root p = some a ↔ p = [] ∧ a = root := by
    intro p a
    cases p with
    | nil => simp [nodeAt, eq_comm]
    | cons byte rest => simp [hwalk]
  refine ⟨fun p => ?_, fun p q a hp hq => ?_, fun a => ?_, fun p a node hp hnode => ?_,
    Set.empty_subset _⟩
  · simp [hpath]
  · rw [((hpath p a).mp hp).1, ((hpath q a).mp hq).1]
  · rw [mem_created]
    simp [hpath]
  · rw [((hpath p a).mp hp).2, created, Finmap.lookup_insert, Option.some.injEq] at hnode
    simp [← hnode]

namespace Holds

variable {nodes : Store TrieNode} {root a b : Addr} {paths words : Set (List UInt8)}
  {path : List UInt8} {node : TrieNode} {byte : UInt8}

theorem nodeAt_concat (hpath : nodeAt nodes root path = some a) (byte : UInt8) :
    nodeAt nodes root (path ++ [byte]) = edge nodes a byte := by
  rw [nodeAt] at hpath ⊢
  rw [walk_concat, hpath, Option.bind_some]

theorem addsLeaf (h : Holds nodes root paths words) (hpath : nodeAt nodes root path = some a)
    (ha : nodes.lookup a = some node) (hvacant : edge nodes a byte = none) (hb : b ∉ nodes)
    (hbyte : byte.toNat < NUM_CHILDREN) :
    AddsLeaf (edge nodes) (edge (linked nodes a node byte b)) root path a byte b where
  parent := hpath
  vacant := hvacant
  edge := by rw [edge_linked ha hb hbyte, if_pos ⟨rfl, rfl⟩]
  others c y hne := by rw [edge_linked ha hb hbyte, if_neg fun heq => hne heq.1 heq.2]
  leaf := edge_dead hb
  fresh p hp := hb ((h.live b).mpr ⟨p, hp⟩)

theorem eow_linked (h : Holds nodes root paths words) (ha : nodes.lookup a = some node)
    (hb : b ∉ nodes) {p : List UInt8} {c : Addr} {object : TrieNode}
    (hp : nodeAt nodes root p = some c)
    (hobject : (linked nodes a node byte b).lookup c = some object) :
    object.eow = true ↔ p ∈ words := by
  have hc : c ≠ b := fun heq => hb ((h.live b).mpr ⟨p, heq ▸ hp⟩)
  rw [linked, Store.lookup_insert_eq, Store.lookup_insert_eq, if_neg hc] at hobject
  by_cases hca : c = a
  · rw [if_pos hca, Option.some.injEq] at hobject
    rw [← hobject, setChild_eow]
    exact h.eow p a node (hca ▸ hp) ha
  · rw [if_neg hca] at hobject
    exact h.eow p c object hp hobject

theorem link (h : Holds nodes root paths words) (hpath : nodeAt nodes root path = some a)
    (ha : nodes.lookup a = some node) (hvacant : edge nodes a byte = none) (hb : b ∉ nodes)
    (hbyte : byte.toNat < NUM_CHILDREN) :
    Holds (linked nodes a node byte b) root (insert (path ++ [byte]) paths) words ∧
      nodeAt (linked nodes a node byte b) root (path ++ [byte]) = some b := by
  have hadds := h.addsLeaf hpath ha hvacant hb hbyte
  have hleaf : nodeAt (linked nodes a node byte b) root (path ++ [byte]) = some b :=
    hadds.walk_leaf h.single
  have hother : ∀ p, p ≠ path ++ [byte] →
      nodeAt (linked nodes a node byte b) root p = nodeAt nodes root p :=
    fun p hp => hadds.walk_other h.single hp
  have hnone : nodeAt nodes root (path ++ [byte]) = none := by
    rw [nodeAt_concat hpath, hvacant]
  have hnew : path ++ [byte] ∉ paths := by
    intro hmem
    obtain ⟨c, hc⟩ := (h.path _).mpr hmem
    rw [hnone] at hc
    cases hc
  refine ⟨⟨fun p => ?_, hadds.unshared h.single, fun c => ?_, fun p c object hp hobject => ?_,
    h.words_subset.trans (Set.subset_insert _ _)⟩, hleaf⟩
  · by_cases hp : p = path ++ [byte]
    · rw [hp]
      exact iff_of_true ⟨b, hleaf⟩ (Set.mem_insert _ _)
    · rw [hother p hp, Set.mem_insert_iff, or_iff_right hp]
      exact h.path p
  · rw [mem_linked]
    constructor
    · rintro (rfl | rfl | hc)
      · exact ⟨path, (hother path (by simp)).trans hpath⟩
      · exact ⟨path ++ [byte], hleaf⟩
      · obtain ⟨p, hp⟩ := (h.live c).mp hc
        have hne : p ≠ path ++ [byte] := by
          intro heq
          rw [heq, hnone] at hp
          cases hp
        exact ⟨p, (hother p hne).trans hp⟩
    · rintro ⟨p, hp⟩
      by_cases hpp : p = path ++ [byte]
      · rw [hpp, hleaf, Option.some.injEq] at hp
        exact .inr (.inl hp.symm)
      · rw [hother p hpp] at hp
        exact .inr (.inr ((h.live c).mpr ⟨p, hp⟩))
  · by_cases hpp : p = path ++ [byte]
    · have hba : b ≠ a := fun heq => hb (heq ▸ Finmap.mem_of_lookup_eq_some ha)
      rw [hpp, hleaf, Option.some.injEq] at hp
      rw [linked, Store.lookup_insert_eq, Store.lookup_insert_eq, ← hp, if_neg hba, if_pos rfl,
        Option.some.injEq] at hobject
      rw [← hobject, hpp, zero_eow]
      exact iff_of_false Bool.false_ne_true fun hmem => hnew (h.words_subset hmem)
    · rw [hother p hpp] at hp
      exact h.eow_linked ha hb hp hobject

theorem mark (h : Holds nodes root paths words) (hpath : nodeAt nodes root path = some a)
    (ha : nodes.lookup a = some node) :
    Holds (nodes.insert a (node.setEow true)) root paths (insert path words) := by
  have hlive : a ∈ nodes := Finmap.mem_of_lookup_eq_some ha
  have hsame : ∀ p, nodeAt (nodes.insert a (node.setEow true)) root p = nodeAt nodes root p := by
    intro p
    rw [nodeAt, edge_setEow ha, nodeAt]
  refine ⟨fun p => ?_, ?_, fun c => ?_, fun p c node' hp hnode => ?_, ?_⟩
  · rw [hsame]
    exact h.path p
  · rw [edge_setEow ha]
    exact h.single
  · simp only [hsame]
    rw [Finmap.mem_insert, ← h.live c]
    exact or_iff_right_of_imp fun heq => heq ▸ hlive
  · rw [hsame] at hp
    rw [Store.lookup_insert_eq] at hnode
    by_cases hca : c = a
    · rw [if_pos hca, Option.some.injEq] at hnode
      have heq : p = path := h.single p path a (hca ▸ hp) hpath
      rw [← hnode, setEow_eow, heq]
      exact iff_of_true rfl (Set.mem_insert _ _)
    · rw [if_neg hca] at hnode
      have hne : p ≠ path := by
        intro heq
        rw [heq, hpath, Option.some.injEq] at hp
        exact hca hp.symm
      rw [Set.mem_insert_iff, or_iff_right hne]
      exact h.eow p c node' hp hnode
  · exact Set.insert_subset ((h.path path).mp ⟨a, hpath⟩) h.words_subset

theorem lookup_of_nodeAt (h : Holds nodes root paths words)
    (hpath : nodeAt nodes root path = some a) : ∃ node, nodes.lookup a = some node :=
  Finmap.mem_iff.mp ((h.live a).mpr ⟨path, hpath⟩)

theorem mem_of_prefix (h : Holds nodes root paths words) {p : List UInt8} (hp : p <+: path)
    (hpath : path ∈ paths) : p ∈ paths := by
  obtain ⟨rest, rfl⟩ := hp
  obtain ⟨a, ha⟩ := (h.path _).mpr hpath
  rw [nodeAt, walk_append] at ha
  obtain ⟨b, hb, _⟩ := Option.bind_eq_some_iff.mp ha
  exact (h.path p).mp ⟨b, hb⟩

theorem trieSearch_eq (h : Holds nodes root paths words) {rest : List UInt8}
    (hrest : ∀ byte ∈ rest, byte ≠ 0 ∧ byte.toNat < NUM_CHILDREN)
    (hpath : nodeAt nodes root path = some a) (tail : List UInt8) :
    ∃ found, trieSearch nodes (some a) (rest ++ 0 :: tail) = .ok found ∧
      (found = true ↔ path ++ rest ∈ words) := by
  induction rest generalizing path a with
  | nil =>
      obtain ⟨node, ha⟩ := h.lookup_of_nodeAt hpath
      refine ⟨node.eow, ?_, ?_⟩
      · rw [List.nil_append, trieSearch, if_pos rfl, Store.load_eq ha]
        rfl
      · rw [List.append_nil]
        exact h.eow path a node hpath ha
  | cons byte rest ih =>
      obtain ⟨node, ha⟩ := h.lookup_of_nodeAt hpath
      obtain ⟨hbyte, hlt⟩ := hrest byte (by simp)
      have hnext := nodeAt_concat hpath byte
      rw [List.cons_append, trieSearch, if_neg hbyte]
      simp only [childAt_eq ha hlt, bind, Except.bind]
      cases hedge : edge nodes a byte with
      | none =>
          rw [hedge] at hnext
          refine ⟨false, rfl, iff_of_false Bool.false_ne_true fun hmem => ?_⟩
          have hprefix : path ++ [byte] <+: path ++ byte :: rest :=
            (List.prefix_append_right_inj path).mpr (by simp)
          obtain ⟨b, hb⟩ := (h.path _).mpr (h.mem_of_prefix hprefix (h.words_subset hmem))
          rw [hnext] at hb
          cases hb
      | some b =>
          rw [hedge] at hnext
          obtain ⟨found, hsearch, hfound⟩ :=
            ih (fun byte' hmem => hrest byte' (by simp [hmem])) hnext
          refine ⟨found, hsearch, ?_⟩
          rw [hfound, List.append_assoc, List.singleton_append]

/-- The loop over the first bytes of a key leads to a node, and goes on with the
others from there. -/
theorem trieInsertLoop_append (h : Holds nodes root paths words) {rest : List UInt8}
    {answers : List (Option Addr)}
    (hrest : ∀ byte ∈ rest, byte ≠ 0 ∧ byte.toNat < NUM_CHILDREN)
    (hpath : nodeAt nodes root path = some a) (hmissing : missing nodes a rest ≤ answers.length)
    (hnodup : answers.Nodup) (hfresh : ∀ answer ∈ answers, Fresh nodes answer)
    (tail : List UInt8) :
    ∃ nodes' a' answers', trieInsertLoop nodes (some a) (rest ++ tail) answers =
        trieInsertLoop nodes' (some a') tail answers' ∧
      nodeAt nodes' root (path ++ rest) = some a' ∧
      Holds nodes' root (paths ∪ {p | p <+: path ++ rest}) words := by
  induction rest generalizing nodes path a paths answers with
  | nil =>
      refine ⟨nodes, a, answers, rfl, ?_, ?_⟩
      · rwa [List.append_nil]
      · have hsub : {p | p <+: path ++ []} ⊆ paths := by
          intro p hp
          have hprefix : p <+: path ++ [] := hp
          rw [List.append_nil] at hprefix
          exact h.mem_of_prefix hprefix ((h.path path).mp ⟨a, hpath⟩)
        rwa [Set.union_eq_self_of_subset_right hsub]
  | cons byte rest ih =>
      obtain ⟨node, ha⟩ := h.lookup_of_nodeAt hpath
      obtain ⟨hbyte, hlt⟩ := hrest byte (by simp)
      have hrest' : ∀ byte' ∈ rest, byte' ≠ 0 ∧ byte'.toNat < NUM_CHILDREN :=
        fun byte' hmem => hrest byte' (by simp [hmem])
      have hsplit : path ++ byte :: rest = path ++ [byte] ++ rest := by simp
      rw [List.cons_append, hsplit]
      rw [missing] at hmissing
      cases hedge : edge nodes a byte with
      | none =>
          simp only [hedge] at hmissing
          cases answers with
          | nil => simp at hmissing
          | cons answer answers =>
              have hanswer := hfresh answer List.mem_cons_self
              cases answer with
              | none => exact hanswer.elim
              | some b =>
                  rw [trieInsertLoop_vacant ha hbyte hlt hedge hanswer]
                  obtain ⟨hlink, hnext⟩ := h.link hpath ha hedge hanswer hlt
                  have hlive : a ∈ nodes := Finmap.mem_of_lookup_eq_some ha
                  have hfewer : missing (linked nodes a node byte b) b rest ≤ answers.length :=
                    (missing_le _ b rest).trans (Nat.le_of_succ_le_succ hmissing)
                  have hpaths : insert (path ++ [byte]) paths ∪ {p | p <+: path ++ [byte] ++ rest} =
                      paths ∪ {p | p <+: path ++ [byte] ++ rest} := by
                    rw [Set.insert_union]
                    exact Set.insert_eq_of_mem (.inr (List.prefix_append _ rest))
                  rw [← hpaths]
                  exact ih hlink hrest' hnext hfewer (List.nodup_cons.mp hnodup).2
                    (fresh_linked hlive hnodup hfresh)
      | some b =>
          simp only [hedge] at hmissing
          rw [trieInsertLoop_child ha hbyte hlt hedge]
          have hnext : nodeAt nodes root (path ++ [byte]) = some b := by
            rw [nodeAt_concat hpath, hedge]
          exact ih h hrest' hnext hmissing hnodup hfresh

theorem trieInsertLoop_eq (h : Holds nodes root paths words) {rest : List UInt8}
    {answers : List (Option Addr)}
    (hrest : ∀ byte ∈ rest, byte ≠ 0 ∧ byte.toNat < NUM_CHILDREN)
    (hpath : nodeAt nodes root path = some a) (hmissing : missing nodes a rest ≤ answers.length)
    (hnodup : answers.Nodup) (hfresh : ∀ answer ∈ answers, Fresh nodes answer)
    (tail : List UInt8) :
    ∃ nodes' a', trieInsertLoop nodes (some a) (rest ++ 0 :: tail) answers =
        .ok (nodes', some a') ∧ nodeAt nodes' root (path ++ rest) = some a' ∧
      Holds nodes' root (paths ∪ {p | p <+: path ++ rest}) words := by
  obtain ⟨nodes', a', answers', hloop, hend⟩ :=
    h.trieInsertLoop_append hrest hpath hmissing hnodup hfresh (0 :: tail)
  refine ⟨nodes', a', ?_, hend⟩
  rw [hloop, trieInsertLoop, if_pos rfl]

end Holds

end Doctrina.Trie
