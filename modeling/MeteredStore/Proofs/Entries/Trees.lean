/-
Trees with other entries.

`map` puts another entry into each node and leaves the nodes where they are, with their colours. What looks at colours and
places only does the same before and after; the lemmas say so for the small operations, and `fill_map`, `down_map` for
places in a tree. A way down that is pushed for a cursor looks at keys as well, but only at which side of the near bound they
are on: `pushTree_map`, `pushLink_map`.
-/
import MeteredStore.Proofs.Walk

namespace MeteredStore

variable {φ : Entry → Entry}

/-! ## Nodes, trees and places -/

/-- another entry in every node -/
def Tree.map (φ : Entry → Entry) : Tree → Tree
  | .leaf => .leaf
  | .node c l e r => .node c (l.map φ) (φ e) (r.map φ)

def Node.map (φ : Entry → Entry) (n : Node) : Node := { n with entry := φ n.entry }

def Frame.map (φ : Entry → Entry) (f : Frame) : Frame := ⟨f.side, f.color, φ f.entry, f.sibling.map φ⟩

@[simp] theorem Node.child_map (φ : Entry → Entry) (n : Node) (s : Side) : (n.map φ).child s = n.child s := by cases s <;> rfl

namespace Tree

@[simp] theorem map_leaf (φ : Entry → Entry) : leaf.map φ = leaf := rfl

@[simp] theorem map_node (φ : Entry → Entry) (c : Color) (l r : Tree) (e : Entry) :
    (node c l e r).map φ = node c (l.map φ) (φ e) (r.map φ) := rfl

@[simp] theorem color_map (φ : Entry → Entry) (t : Tree) : (t.map φ).color = t.color := by cases t <;> rfl

@[simp] theorem child_map (φ : Entry → Entry) (t : Tree) (s : Side) : (t.map φ).child s = (t.child s).map φ := by
  cases t with
  | leaf => rfl
  | node c l e r => cases s <;> rfl

@[simp] theorem paint_map (φ : Entry → Entry) (c : Color) (t : Tree) : (t.map φ).paint c = (t.paint c).map φ := by
  cases t <;> rfl

@[simp] theorem paint?_map (φ : Entry → Entry) (c : Color) (t : Tree) : (t.map φ).paint? c = (t.paint? c).map (map φ) := by
  cases t <;> rfl

@[simp] theorem map_eq_leaf {t : Tree} : t.map φ = leaf ↔ t = leaf := by cases t <;> simp

@[simp] theorem onlyChild_map (φ : Entry → Entry) (t : Tree) : (t.map φ).onlyChild = t.onlyChild.map φ := by
  cases t with
  | leaf => rfl
  | node c l e r => cases l <;> rfl

theorem entries_map (φ : Entry → Entry) (t : Tree) : (t.map φ).entries = t.entries.map φ := by
  induction t with
  | leaf => rfl
  | node c l e r ihl ihr => simp [entries, ihl, ihr]

theorem topId_map (hφ : ∀ e, (φ e).id = e.id) (t : Tree) : (t.map φ).topId = t.topId := by
  cases t with
  | leaf => rfl
  | node c l e r => simp [topId, hφ]

theorem top?_map (hφ : ∀ e, (φ e).id = e.id) (t : Tree) : (t.map φ).top? = t.top?.map (Node.map φ) := by
  cases t with
  | leaf => rfl
  | node c l e r => simp [top?, topId_map hφ, Node.map]

theorem nodes_map (hφ : ∀ e, (φ e).id = e.id) (t : Tree) : (t.map φ).nodes = t.nodes.map (Node.map φ) := by
  induction t with
  | leaf => rfl
  | node c l e r ihl ihr => simp [nodes, ihl, ihr, topId_map hφ, Node.map]

theorem subtree?_map (hφ : ∀ e, (φ e).id = e.id) (i : NodeId) (t : Tree) :
    (t.map φ).subtree? i = (t.subtree? i).map (map φ) := by
  induction t with
  | leaf => rfl
  | node c l e r ihl ihr =>
    simp only [map_node, subtree?, hφ, ihl, ihr]
    split
    · rfl
    · cases l.subtree? i <;> rfl

theorem along_map (φ : Entry → Entry) (d : Direction) (t : Tree) : (t.map φ).along d = (t.along d).map φ := by
  cases d <;> simp [along, entries_map]

theorem onwards_map (φ : Entry → Entry) (d : Direction) (t : Tree) : (t.map φ).onwards d = (t.onwards d).map φ := by
  cases t with
  | leaf => rfl
  | node c l e r =>
    have hchild := child_map φ (node c l e r) d.onward
    rw [map_node] at hchild
    rw [map_node, onwards, onwards, hchild, along_map, List.map_cons]

end Tree

@[simp] theorem Frame.fill_map (φ : Entry → Entry) (f : Frame) (t : Tree) : (f.map φ).fill (t.map φ) = (f.fill t).map φ := by
  obtain ⟨s, c, e, b⟩ := f
  cases s <;> rfl

theorem Path.fill_map (φ : Entry → Entry) (p : Path) (t : Tree) :
    Path.fill (List.map (Frame.map φ) p) (t.map φ) = (p.fill t).map φ := by
  induction p generalizing t with
  | nil => rfl
  | cons f p ih => rw [List.map_cons, fill_cons, Frame.fill_map, ih, fill_cons]

theorem Tree.down_map (φ : Entry → Entry) (s : Side) (t : Tree) :
    (t.map φ).down s = (t.down s).map (Prod.map (Frame.map φ) (map φ)) := by
  cases t with
  | leaf => rfl
  | node c l e r => cases s <;> rfl

/-! ## Entries that stay as they are -/

theorem Tree.map_eq_self {t : Tree} (h : ∀ e ∈ t.entries, φ e = e) : t.map φ = t := by
  induction t with
  | leaf => rfl
  | node c l e r ihl ihr =>
    simp only [entries, List.mem_append, List.mem_cons] at h
    rw [map_node, ihl fun f hf => h f (.inl hf), h e (.inr (.inl rfl)), ihr fun f hf => h f (.inr (.inr hf))]

theorem Frame.map_eq_self {f : Frame} (h : ∀ e ∈ f.before ++ f.after, φ e = e) : f.map φ = f := by
  obtain ⟨s, c, e, b⟩ := f
  have hb : b.map φ = b := Tree.map_eq_self fun x hx => h x (by cases s <;> simp [before, after, hx])
  have he : φ e = e := h e (by cases s <;> simp [before, after])
  rw [map, hb, he]

theorem Path.map_eq_self {p : Path} (h : ∀ e ∈ before p ++ after p, φ e = e) : List.map (Frame.map φ) p = p := by
  induction p with
  | nil => rfl
  | cons f p ih =>
    simp only [before, after, List.mem_append] at h
    rw [List.map_cons, Frame.map_eq_self, ih]
    · intro e he
      exact h e ((List.mem_append.mp he).imp .inl .inr)
    · intro e he
      exact h e ((List.mem_append.mp he).imp .inr .inl)

/-! ## Ways down for a cursor -/

namespace Cursor

variable {b b' : Bounds} {d : Direction}

theorem pushTree_map (hφ : ∀ e, (φ e).id = e.id) (hnear : ∀ e, b'.isNear d (φ e).key = b.isNear d e.key) (t : Tree)
    (stack : List NodeId) : pushTree b' d (t.map φ) stack = pushTree b d t stack := by
  induction t generalizing stack with
  | leaf => rfl
  | node c l e r ihl ihr => cases d <;> simp only [Tree.map_node, pushTree, hφ, hnear, ihl, ihr]

theorem pushLink_map (hφ : ∀ e, (φ e).id = e.id) (hnear : ∀ e, b'.isNear d (φ e).key = b.isNear d e.key) (root : Tree)
    (detached : List Node) (link : Option NodeId) (stack : List NodeId) :
    pushLink (root.map φ) b' d (detached.map (Node.map φ)) link stack = pushLink root b d detached link stack := by
  fun_induction pushLink root b d detached link stack with
  | case1 detached => cases detached <;> rfl
  | case2 detached i stack t ht =>
    have hsub : (root.map φ).subtree? i = some (t.map φ) := by rw [Tree.subtree?_map hφ, ht, Option.map_some]
    rw [← pushTree_map hφ hnear t stack]
    cases detached <;> simp only [List.map_nil, List.map_cons, pushLink, hsub]
  | case3 i stack hout =>
    have hsub : (root.map φ).subtree? i = none := by rw [Tree.subtree?_map hφ, hout, Option.map_none]
    simp only [List.map_nil, pushLink, hsub]
  | case4 stack n later hn hout ih =>
    have hsub : (root.map φ).subtree? n.entry.id = none := by rw [Tree.subtree?_map hφ, hout, Option.map_none]
    simp only [List.map_cons, pushLink, hsub, Node.map, hφ, hnear, hn, if_true]
    exact ih
  | case5 stack n later hn hout ih =>
    have hsub : (root.map φ).subtree? n.entry.id = none := by rw [Tree.subtree?_map hφ, hout, Option.map_none]
    simp only [List.map_cons, pushLink, hsub, Node.map, hφ, hnear, hn, if_true]
    exact ih
  | case6 i stack hout n later hne ih =>
    have hsub : (root.map φ).subtree? i = none := by rw [Tree.subtree?_map hφ, hout, Option.map_none]
    simp only [List.map_cons, pushLink, hsub, Node.map, hφ, hne, if_false]
    exact ih

end Cursor

end MeteredStore
