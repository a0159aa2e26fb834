import Doctrina.Heap.Basic
import Doctrina.Lib.PairingHeap
/-!
# The forest behind a pointer

`Rep nodes t` says that the links of the store spell out the forest `t`, whose
elements are the addresses of the nodes with their items.  The three recursive
functions of heap.c do on the store what their namesakes of
`Lib.PairingHeap` do on the forest, and touch no other node.
-/

namespace Doctrina.Heap

open Doctrina.Lib.PairingHeap

variable {α : Type}

abbrev Shape (α : Type) : Type := Forest (Addr × α)

def Shape.root (t : Shape α) : Option Addr := t.top.map Prod.fst

def Shape.addrs (t : Shape α) : List Addr := t.elements.map Prod.fst

def Rep (nodes : Store (HeapNode α)) : Shape α → Prop
  | .nil => True
  | .node x c s =>
      nodes.lookup x.1 = some ⟨x.2, Shape.root c, Shape.root s⟩ ∧ Rep nodes c ∧ Rep nodes s

/-- The two stores differ at most at some addresses, and in no address that is
live. -/
structure Frame (nodes nodes' : Store (HeapNode α)) (touched : List Addr) : Prop where
  lookup : ∀ a, a ∉ touched → nodes'.lookup a = nodes.lookup a
  live : ∀ a, a ∈ nodes' ↔ a ∈ nodes

/-- The comparison of merge_nodes. -/
def Le (cmp : α → α → Int) (x y : Addr × α) : Prop := cmp x.2 y.2 ≤ 0

instance (cmp : α → α → Int) : DecidableRel (Le cmp) := fun _ _ =>
  inferInstanceAs (Decidable (_ ≤ _))

section Rep

variable {nodes nodes' : Store (HeapNode α)} {t u c s : Shape α} {x y : Addr × α}

@[simp] theorem root_nil : Shape.root (.nil : Shape α) = none := rfl

@[simp] theorem root_node : Shape.root (.node x c s) = some x.1 := rfl

@[simp] theorem addrs_nil : Shape.addrs (.nil : Shape α) = [] := rfl

@[simp] theorem addrs_node :
    Shape.addrs (.node x c s) = x.1 :: (Shape.addrs c ++ Shape.addrs s) := by
  simp [Shape.addrs]

@[simp] theorem rep_nil : Rep nodes .nil := trivial

theorem Rep.congr (h : Rep nodes t)
    (heq : ∀ a ∈ Shape.addrs t, nodes'.lookup a = nodes.lookup a) : Rep nodes' t := by
  induction t with
  | nil => exact rep_nil
  | node x c s ihc ihs =>
      rw [addrs_node] at heq
      refine ⟨(heq x.1 List.mem_cons_self).trans h.1, ihc h.2.1 fun a ha => heq a ?_,
        ihs h.2.2 fun a ha => heq a ?_⟩
      · exact List.mem_cons_of_mem _ (List.mem_append_left _ ha)
      · exact List.mem_cons_of_mem _ (List.mem_append_right _ ha)

theorem Rep.frame (h : Rep nodes t) {touched : List Addr} (hframe : Frame nodes nodes' touched)
    (hdisjoint : ∀ a ∈ Shape.addrs t, a ∉ touched) : Rep nodes' t :=
  h.congr fun a ha => hframe.lookup a (hdisjoint a ha)

theorem Rep.live (h : Rep nodes t) : ∀ a ∈ Shape.addrs t, a ∈ nodes := by
  induction t with
  | nil => simp
  | node x c s ihc ihs =>
      intro a ha
      rw [addrs_node, List.mem_cons, List.mem_append] at ha
      rcases ha with heq | ha | ha
      · rw [heq]
        exact Finmap.mem_of_lookup_eq_some h.1
      · exact ihc h.2.1 a ha
      · exact ihs h.2.2 a ha

theorem Frame.refl (nodes : Store (HeapNode α)) (touched : List Addr) :
    Frame nodes nodes touched :=
  ⟨fun _ _ => rfl, fun _ => Iff.rfl⟩

theorem Frame.trans {nodes'' : Store (HeapNode α)} {touched : List Addr}
    (h : Frame nodes nodes' touched) (h' : Frame nodes' nodes'' touched) :
    Frame nodes nodes'' touched where
  lookup a ha := (h'.lookup a ha).trans (h.lookup a ha)
  live a := (h'.live a).trans (h.live a)

theorem Frame.mono {touched touched' : List Addr} (h : Frame nodes nodes' touched)
    (hsub : ∀ a ∈ touched, a ∈ touched') : Frame nodes nodes' touched' where
  lookup a ha := h.lookup a fun hmem => ha (hsub a hmem)
  live := h.live

theorem frame_insert {a : Addr} (hlive : a ∈ nodes) (object : HeapNode α) :
    Frame nodes (nodes.insert a object) [a] where
  lookup b hb := by
    rw [Store.lookup_insert_eq, if_neg (by simpa using hb)]
  live b := by
    rw [Finmap.mem_insert]
    constructor
    · intro h
      cases h with
      | inl heq => rwa [heq]
      | inr hmem => exact hmem
    · exact .inr

/-- What a node that is assigned to does not reach keeps its shape. -/
theorem Rep.insert (h : Rep nodes t) {a : Addr} (ha : a ∉ Shape.addrs t)
    (object : HeapNode α) : Rep (nodes.insert a object) t := by
  apply h.congr
  intro b hb
  rw [Store.lookup_insert_eq, if_neg]
  intro heq
  exact ha (heq ▸ hb)

end Rep

section Functions

variable {nodes : Store (HeapNode α)} {cmp : α → α → Int}

theorem adopt_rep {x y : Addr × α} {c s d u : Shape α} (hx : Rep nodes (.node x c s))
    (hy : Rep nodes (.node y d u))
    (hnodup : (Shape.addrs (.node x c s) ++ Shape.addrs (.node y d u)).Nodup) :
    ∃ nodes', adopt nodes (some x.1) (some y.1) = .ok nodes' ∧
      Rep nodes' (.node x (.node y d c) s) ∧ Frame nodes nodes' [x.1, y.1] := by
  have hsplit := List.nodup_append.mp hnodup
  simp only [addrs_node, List.nodup_cons, List.mem_append, List.mem_cons, not_or] at hsplit
  obtain ⟨⟨⟨hxc, hxs⟩, _⟩, ⟨⟨hyd, _⟩, _⟩, hdisjoint⟩ := hsplit
  have hxy : x.1 ≠ y.1 := hdisjoint x.1 (.inl rfl) y.1 (.inl rfl)
  have hxd : x.1 ∉ Shape.addrs d := fun h => hdisjoint x.1 (.inl rfl) x.1 (.inr (.inl h)) rfl
  have hyc : y.1 ∉ Shape.addrs c := fun h => hdisjoint y.1 (.inr (.inl h)) y.1 (.inl rfl) rfl
  have hys : y.1 ∉ Shape.addrs s := fun h => hdisjoint y.1 (.inr (.inr h)) y.1 (.inl rfl) rfl
  have hlookup : (nodes.insert y.1 ⟨y.2, Shape.root d, Shape.root c⟩).lookup x.1 =
      some ⟨x.2, Shape.root c, Shape.root s⟩ := by
    rw [Store.lookup_insert_eq, if_neg hxy]
    exact hx.1
  refine ⟨(nodes.insert y.1 ⟨y.2, Shape.root d, Shape.root c⟩).insert x.1
    ⟨x.2, some y.1, Shape.root s⟩, ?_, ⟨?_, ⟨?_, ?_, ?_⟩, ?_⟩, ?_⟩
  · simp only [adopt, Store.load_eq hx.1, Store.modify_eq hy.1, bind, Except.bind]
    exact Store.modify_eq hlookup _
  · rw [Store.lookup_insert_eq, if_pos rfl, root_node]
  · rw [Store.lookup_insert_eq, if_neg (Ne.symm hxy), Store.lookup_insert_eq, if_pos rfl]
  · exact (hy.2.1.insert hyd _).insert hxd _
  · exact (hx.2.1.insert hyc _).insert hxc _
  · exact (hx.2.2.insert hys _).insert hxs _
  · have hylive : y.1 ∈ nodes := Finmap.mem_of_lookup_eq_some hy.1
    have hxlive : x.1 ∈ nodes.insert y.1 ⟨y.2, Shape.root d, Shape.root c⟩ :=
      Finmap.mem_of_lookup_eq_some hlookup
    have hfirst := (frame_insert hylive ⟨y.2, Shape.root d, Shape.root c⟩).mono
      (List.subset_cons_self x.1 [y.1])
    have hsecond := (frame_insert hxlive ⟨x.2, some y.1, Shape.root s⟩).mono
      (List.cons_subset_cons x.1 (List.nil_subset [y.1]))
    exact hfirst.trans hsecond

theorem mergeNodes_rep (cmp : α → α → Int) {t u : Shape α} (ht : Rep nodes t) (hu : Rep nodes u)
    (hnodup : (Shape.addrs t ++ Shape.addrs u).Nodup) :
    ∃ nodes', mergeNodes nodes t.root u.root cmp =
        .ok (nodes', Shape.root (Forest.merge (Le cmp) t u)) ∧
      Rep nodes' (Forest.merge (Le cmp) t u) ∧
      Frame nodes nodes' (Shape.addrs t ++ Shape.addrs u) := by
  cases t with
  | nil => exact ⟨nodes, rfl, hu, Frame.refl nodes _⟩
  | node x c s =>
      cases u with
      | nil => exact ⟨nodes, rfl, ht, Frame.refl nodes _⟩
      | node y d u =>
          have hx := ht.1
          have hy := hu.1
          simp only [root_node, mergeNodes, Store.load_eq hx, Store.load_eq hy, bind,
            Except.bind, Forest.merge]
          by_cases hle : cmp x.2 y.2 ≤ 0
          · obtain ⟨nodes', hadopt, hrep, hframe⟩ := adopt_rep ht hu hnodup
            rw [if_pos hle, if_pos (show Le cmp x y from hle), hadopt]
            exact ⟨nodes', rfl, hrep, hframe.mono (by simp)⟩
          · obtain ⟨nodes', hadopt, hrep, hframe⟩ :=
              adopt_rep hu ht (List.nodup_append_comm.mp hnodup)
            rw [if_neg hle, if_neg (show ¬Le cmp x y from hle), hadopt]
            exact ⟨nodes', rfl, hrep, hframe.mono (by simp)⟩

theorem addrs_merge_perm (cmp : α → α → Int) {t u : Shape α} (ht : t.Single) (hu : u.Single) :
    (Shape.addrs (Forest.merge (Le cmp) t u)).Perm (Shape.addrs t ++ Shape.addrs u) := by
  rw [Shape.addrs, Shape.addrs, Shape.addrs, ← List.map_append]
  exact (Forest.elements_merge ht hu).map _

theorem addrs_mergePairs_perm (cmp : α → α → Int) (t : Shape α) :
    (Shape.addrs (Forest.mergePairs (Le cmp) t)).Perm (Shape.addrs t) :=
  (Forest.elements_mergePairs t).map _

/-- The two assignments that cut the first two trees off a chain. -/
theorem cut_rep {x y : Addr × α} {c d rest : Shape α}
    (h : Rep nodes (.node x c (.node y d rest)))
    (hnodup : (Shape.addrs (.node x c (.node y d rest))).Nodup) :
    ∃ nodes', (do
        let nodes ← nodes.modify (some x.1) (HeapNode.setSibling none)
        nodes.modify (some y.1) (HeapNode.setSibling none)) = .ok nodes' ∧
      Rep nodes' (.node x c .nil) ∧ Rep nodes' (.node y d .nil) ∧ Rep nodes' rest ∧
      Frame nodes nodes' [x.1, y.1] := by
  obtain ⟨hx, hc, hy, hd, hrest⟩ := h
  simp only [addrs_node, List.nodup_cons, List.mem_append, List.mem_cons, not_or,
    List.nodup_append] at hnodup
  obtain ⟨⟨hxc, hxy, hxd, hxrest⟩, _, ⟨⟨hyd, hyrest⟩, _⟩, hdisjoint⟩ := hnodup
  have hyc : y.1 ∉ Shape.addrs c := fun h => hdisjoint y.1 h y.1 (.inl rfl) rfl
  have hlookup : (nodes.insert x.1 ⟨x.2, Shape.root c, none⟩).lookup y.1 =
      some ⟨y.2, Shape.root d, Shape.root rest⟩ := by
    rw [Store.lookup_insert_eq, if_neg (Ne.symm hxy)]
    exact hy
  refine ⟨(nodes.insert x.1 ⟨x.2, Shape.root c, none⟩).insert y.1
    ⟨y.2, Shape.root d, none⟩, ?_, ⟨?_, ?_, rep_nil⟩, ⟨?_, ?_, rep_nil⟩, ?_, ?_⟩
  · rw [Store.modify_eq hx]
    exact Store.modify_eq hlookup _
  · rw [Store.lookup_insert_eq, if_neg hxy, Store.lookup_insert_eq, if_pos rfl]
    rfl
  · exact (hc.insert hxc _).insert hyc _
  · rw [Store.lookup_insert_eq, if_pos rfl]
    rfl
  · exact (hd.insert hxd _).insert hyd _
  · exact (hrest.insert hxrest _).insert hyrest _
  · have hxlive : x.1 ∈ nodes := Finmap.mem_of_lookup_eq_some hx
    have hylive := Finmap.mem_of_lookup_eq_some hlookup
    have hfirst := (frame_insert hxlive ⟨x.2, Shape.root c, none⟩).mono
      (List.cons_subset_cons x.1 (List.nil_subset [y.1]))
    have hsecond := (frame_insert hylive ⟨y.2, Shape.root d, none⟩).mono
      (List.subset_cons_self x.1 [y.1])
    exact hfirst.trans hsecond

theorem mergePairs_succ {x y : Addr × α} {c d rest : Shape α}
    (h : Rep nodes (.node x c (.node y d rest))) {nodes' : Store (HeapNode α)}
    (hcut : (do
        let nodes ← nodes.modify (some x.1) (HeapNode.setSibling none)
        nodes.modify (some y.1) (HeapNode.setSibling none)) = .ok nodes') (fuel : Nat) :
    mergePairs cmp (fuel + 1) nodes (some x.1) = (do
      let result ← mergeNodes nodes' (some x.1) (some y.1) cmp
      let rest ← mergePairs cmp fuel result.1 rest.root
      mergeNodes rest.1 result.2 rest.2 cmp) := by
  obtain ⟨hx, _, hy, _, _⟩ := h
  simp only [bind, Except.bind] at hcut
  simp only [mergePairs, Store.load_eq hx, root_node, Store.load_eq hy, bind, Except.bind]
  split at hcut
  · cases hcut
  · rw [hcut]

theorem mergePairs_rep (cmp : α → α → Int) {t : Shape α} (h : Rep nodes t)
    (hnodup : (Shape.addrs t).Nodup) {fuel : Nat} (hfuel : (Shape.addrs t).length < fuel) :
    ∃ nodes', mergePairs cmp fuel nodes t.root =
        .ok (nodes', Shape.root (Forest.mergePairs (Le cmp) t)) ∧
      Rep nodes' (Forest.mergePairs (Le cmp) t) ∧ Frame nodes nodes' (Shape.addrs t) := by
  induction t using Forest.mergePairs.induct generalizing nodes fuel with
  | case1 =>
      cases fuel with
      | zero => simp at hfuel
      | succ fuel => exact ⟨nodes, rfl, h, Frame.refl nodes _⟩
  | case2 x c =>
      cases fuel with
      | zero => simp at hfuel
      | succ fuel =>
          refine ⟨nodes, ?_, h, Frame.refl nodes _⟩
          simp only [root_node, mergePairs, Store.load_eq h.1, root_nil, bind, Except.bind]
          rfl
  | case3 x c y d rest ih =>
      cases fuel with
      | zero => simp at hfuel
      | succ fuel =>
          obtain ⟨nodes₁, hcut, hx, hy, hrest, hframe₁⟩ := cut_rep h hnodup
          have haddrs : Shape.addrs (.node x c (.node y d rest)) =
              (Shape.addrs (.node x c .nil) ++ Shape.addrs (.node y d .nil)) ++
                Shape.addrs rest := by simp
          rw [haddrs] at hnodup hfuel ⊢
          have hsplit := List.nodup_append.mp hnodup
          -- the pair and the rest share no node, so that each is a forest still
          -- when the other has been worked on
          have hseparate : ∀ a ∈ Shape.addrs rest,
              a ∉ Shape.addrs (.node x c .nil) ++ Shape.addrs (.node y d .nil) :=
            fun a ha hmem => hsplit.2.2 a hmem a ha rfl
          obtain ⟨nodes₂, hmerge, hpair, hframe₂⟩ := mergeNodes_rep cmp hx hy hsplit.1
          have hpairs : (Shape.addrs (Forest.merge (Le cmp) (.node x c .nil)
              (.node y d .nil))).Perm _ := addrs_merge_perm cmp rfl rfl
          have hfuel' : (Shape.addrs rest).length < fuel := by
            simp at hfuel
            omega
          obtain ⟨nodes₃, hrec, hlast, hframe₃⟩ :=
            ih (hrest.frame hframe₂ hseparate) hsplit.2.1 hfuel'
          have hpair' := hpair.frame hframe₃ fun a ha hmem =>
            hseparate a hmem (hpairs.mem_iff.mp ha)
          have hall := hpairs.append (addrs_mergePairs_perm cmp rest)
          obtain ⟨nodes₄, hmerge', hrep, hframe₄⟩ := mergeNodes_rep cmp hpair' hlast
            (hall.nodup_iff.mpr hnodup)
          rw [Forest.mergePairs]
          refine ⟨nodes₄, ?_, hrep, ?_⟩
          · rw [root_node, mergePairs_succ h hcut]
            rw [root_node, root_node] at hmerge
            simp only [hmerge, hrec, bind, Except.bind]
            exact hmerge'
          · have hpart₁ : Frame nodes nodes₁ (Shape.addrs (.node x c .nil) ++
                Shape.addrs (.node y d .nil) ++ Shape.addrs rest) := hframe₁.mono (by simp)
            have hpart₂ := hframe₂.mono (fun a ha =>
              List.mem_append_left (Shape.addrs rest) ha)
            have hpart₃ := hframe₃.mono fun a ha => List.mem_append_right
              (Shape.addrs (.node x c .nil) ++ Shape.addrs (.node y d .nil)) ha
            have hpart₄ := hframe₄.mono fun a ha => hall.mem_iff.mp ha
            exact ((hpart₁.trans hpart₂).trans hpart₃).trans hpart₄

theorem destroyNode_rep {t : Shape α} (h : Rep nodes t) (hnodup : (Shape.addrs t).Nodup)
    {fuel : Nat} (hfuel : (Shape.addrs t).length < fuel) :
    ∃ nodes', destroyNode fuel nodes t.root = .ok nodes' ∧
      ∀ a, nodes'.lookup a = if a ∈ Shape.addrs t then none else nodes.lookup a := by
  induction t generalizing nodes fuel with
  | nil =>
      cases fuel with
      | zero => simp at hfuel
      | succ fuel => exact ⟨nodes, rfl, by simp⟩
  | node x c s ihc ihs =>
      cases fuel with
      | zero => simp at hfuel
      | succ fuel =>
          obtain ⟨hx, hc, hs⟩ := h
          simp only [addrs_node, List.nodup_cons, List.mem_append, not_or,
            List.nodup_append] at hnodup
          obtain ⟨⟨hxc, hxs⟩, hcnodup, hsnodup, hdisjoint⟩ := hnodup
          simp only [addrs_node, List.length_cons, List.length_append] at hfuel
          obtain ⟨nodes₁, hchild, hlookup₁⟩ := ihc hc hcnodup (by omega : _ < fuel)
          -- the node outlives its children, and its siblings outlive both
          have hx₁ : nodes₁.lookup x.1 = some ⟨x.2, Shape.root c, Shape.root s⟩ := by
            rw [hlookup₁, if_neg hxc, hx]
          obtain ⟨nodes₂, hnodes₂⟩ : ∃ nodes₂, nodes₂ =
              nodes₁.insert x.1 ⟨x.2, none, Shape.root s⟩ := ⟨_, rfl⟩
          have hx₂ : nodes₂.lookup x.1 = some ⟨x.2, none, Shape.root s⟩ := by
            rw [hnodes₂, Finmap.lookup_insert]
          have hs₁ : Rep nodes₁ s := by
            apply hs.congr
            intro a ha
            rw [hlookup₁, if_neg fun hac => hdisjoint a hac a ha rfl]
          have hs₂ : Rep nodes₂ s := by
            rw [hnodes₂]
            exact hs₁.insert hxs _
          obtain ⟨nodes₃, hsibling, hlookup₃⟩ := ihs hs₂ hsnodup (by omega : _ < fuel)
          have hx₃ : nodes₃.lookup x.1 = some ⟨x.2, none, Shape.root s⟩ := by
            rw [hlookup₃, if_neg hxs, hx₂]
          have hmodify₁ : nodes₁.modify (some x.1) (HeapNode.setChild none) = .ok nodes₂ := by
            rw [hnodes₂]
            exact Store.modify_eq hx₁ _
          have hmodify₃ : nodes₃.modify (some x.1) (HeapNode.setSibling none) =
              .ok (nodes₃.insert x.1 ⟨x.2, none, none⟩) := Store.modify_eq hx₃ _
          refine ⟨(nodes₃.insert x.1 ⟨x.2, none, none⟩).erase x.1, ?_, fun a => ?_⟩
          · simp only [root_node, destroyNode, Store.load_eq hx, hchild, hmodify₁,
              Store.load_eq hx₂, hsibling, hmodify₃, bind, Except.bind]
            exact Store.free_eq (Finmap.lookup_insert _)
          · rw [Store.lookup_erase_eq, addrs_node]
            by_cases hax : a = x.1
            · simp [hax]
            · rw [if_neg hax, Store.lookup_insert_eq, if_neg hax, hlookup₃, hnodes₂,
                Store.lookup_insert_eq, if_neg hax, hlookup₁]
              by_cases hac : a ∈ Shape.addrs c
              · simp [hac]
              · by_cases has : a ∈ Shape.addrs s
                · simp [has]
                · simp [hax, hac, has]

end Functions

end Doctrina.Heap
