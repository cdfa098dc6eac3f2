/-
# Depth-first search over numbered trees

Ordered forests, and the depth-first search of a graph library over a tree whose vertices
are numbered: it starts at the vertices in the order of their numbers, leaves out those
that have been visited, and reports each vertex that it discovers and each edge that it
examines.  The main result is `everyExamine_search_iff`: whatever is asked of an edge and
of whether its target has been discovered before it is examined, the search meets it if
and only if every edge does, where "discovered before" means that the number of the target
is below those of all its ancestors.
-/
import Mathlib

/-! ## Forests -/

/-- An ordered forest: the first tree, given by its root and the forest below the root,
and the forest to the right of it. -/
inductive Forest (α : Type*) where
  | nil
  | tree (root : α) (children rest : Forest α)

namespace Forest

variable {α : Type*}

/-- The vertices of a forest in preorder. -/
def vertices : Forest α → List α
  | nil => []
  | tree v children rest => v :: (vertices children ++ vertices rest)

/-- The edges of a forest whose roots hang below `u`, in the order of their targets. -/
def edges : α → Forest α → List (α × α)
  | _, nil => []
  | u, tree v children rest => (u, v) :: (edges v children ++ edges u rest)

/-- Every vertex is the target of one edge. -/
theorem edges_map_snd (u : α) (f : Forest α) : (edges u f).map Prod.snd = vertices f := by
  induction f generalizing u with
  | nil => rfl
  | tree v children rest ihc ihr =>
      rw [edges, vertices, List.map_cons, List.map_append, ihc, ihr]

/-- The target of an edge is a vertex. -/
theorem snd_mem_vertices {u : α} {f : Forest α} {e : α × α} (he : e ∈ edges u f) :
    e.2 ∈ vertices f := by
  rw [← edges_map_snd u f]
  exact List.mem_map_of_mem he

/-- The source of an edge is the vertex above the forest or one of its vertices. -/
theorem fst_mem_vertices {u : α} {f : Forest α} {e : α × α} (he : e ∈ edges u f) :
    e.1 ∈ u :: vertices f := by
  induction f generalizing u with
  | nil => simp [edges] at he
  | tree v children rest ihc ihr =>
      rw [edges, List.mem_cons, List.mem_append] at he
      rw [vertices]
      rcases he with rfl | he | he
      · exact List.mem_cons_self
      · have := ihc he
        simp only [List.mem_cons, List.mem_append] at this ⊢
        tauto
      · have := ihr he
        simp only [List.mem_cons, List.mem_append] at this ⊢
        tauto

/-- In a forest without repetitions an edge is determined by its target. -/
theorem edge_unique {u : α} {f : Forest α} (hnodup : (vertices f).Nodup) {e e' : α × α}
    (he : e ∈ edges u f) (he' : e' ∈ edges u f) (htarget : e.2 = e'.2) : e = e' := by
  rw [← edges_map_snd u f] at hnodup
  exact List.inj_on_of_nodup_map hnodup he he' htarget

/-- A set that contains the vertex above a forest and the target of each edge whose source
it contains, contains the forest. -/
theorem vertices_subset_of_closed {u : α} {f : Forest α} {S : Set α} (hu : u ∈ S)
    (hclosed : ∀ e ∈ edges u f, e.1 ∈ S → e.2 ∈ S) : ∀ v ∈ vertices f, v ∈ S := by
  induction f generalizing u with
  | nil => simp [vertices]
  | tree v children rest ihc ihr =>
      simp only [edges, List.mem_cons, List.mem_append] at hclosed
      have hv : v ∈ S := hclosed (u, v) (Or.inl rfl) hu
      intro w hw
      simp only [vertices, List.mem_cons, List.mem_append] at hw
      rcases hw with rfl | hw | hw
      · exact hv
      · exact ihc hv (fun e he => hclosed e (Or.inr (Or.inl he))) w hw
      · exact ihr hu (fun e he => hclosed e (Or.inr (Or.inr he))) w hw

/-! ## When a forest can be visited -/

/-- The visited vertices `vis` are such that `u` can be visited with the forest below it: no
vertex occurs twice, and of a visited tree in the forest everything is visited. -/
structure Ready (u : α) (vis : Finset α) (f : Forest α) : Prop where
  nodup : (u :: vertices f).Nodup
  complete : ∀ e ∈ edges u f, e.1 ∈ vis → e.1 ≠ u → e.2 ∈ vis

/-- The parts of a first tree and of the forest to the right of it have no vertex in common. -/
theorem nodup_tree {u v : α} {children rest : Forest α}
    (h : (u :: vertices (tree v children rest)).Nodup) :
    (v :: vertices children).Nodup ∧ (u :: vertices rest).Nodup ∧ u ∉ v :: vertices children ∧
      ∀ w ∈ v :: vertices children, w ∉ vertices rest := by
  simp only [vertices, List.nodup_cons, List.mem_cons, List.mem_append, List.nodup_append,
    not_or] at h ⊢
  obtain ⟨⟨huv, huc, hur⟩, ⟨hvc, hvr⟩, hc, hr, hdisj⟩ := h
  refine ⟨⟨hvc, hc⟩, ⟨hur, hr⟩, ⟨huv, huc⟩, ?_⟩
  rintro w (rfl | hw) hmem
  · exact hvr hmem
  · exact hdisj w hw w hmem rfl

/-- An edge that starts at the root of the first tree or below it is an edge below it. -/
theorem mem_edges_children {u v : α} {children rest : Forest α}
    (hnodup : (u :: vertices (tree v children rest)).Nodup) {e : α × α}
    (he : e ∈ edges u (tree v children rest)) (hsource : e.1 ∈ v :: vertices children) :
    e ∈ edges v children := by
  obtain ⟨-, -, hu, hdisj⟩ := nodup_tree hnodup
  rw [edges, List.mem_cons, List.mem_append] at he
  rcases he with rfl | he | he
  · exact absurd hsource hu
  · exact he
  · rcases List.mem_cons.mp (fst_mem_vertices he) with heq | hmem
    · exact absurd (heq ▸ hsource) hu
    · exact absurd hmem (hdisj _ hsource)

/-- An edge that starts to the right of the first tree is an edge there. -/
theorem mem_edges_rest {u v : α} {children rest : Forest α}
    (hnodup : (u :: vertices (tree v children rest)).Nodup) {e : α × α}
    (he : e ∈ edges u (tree v children rest)) (hsource : e.1 ∈ vertices rest) :
    e ∈ edges u rest := by
  obtain ⟨-, hr, -, hdisj⟩ := nodup_tree hnodup
  rw [edges, List.mem_cons, List.mem_append] at he
  rcases he with rfl | he | he
  · exact absurd hsource (List.nodup_cons.mp hr).1
  · exact absurd hsource (hdisj _ (fst_mem_vertices he))
  · exact he

namespace Ready

variable {u v : α} {vis vis' : Finset α} {children rest : Forest α}

/-- Of a visited root, the children have been visited too. -/
theorem children_subset (h : Ready u vis (tree v children rest)) (hv : v ∈ vis) :
    ∀ w ∈ vertices children, w ∈ vis := by
  refine vertices_subset_of_closed (S := {w | w ∈ vis}) hv fun e he hvis => ?_
  refine h.complete e (List.mem_cons_of_mem _ (List.mem_append_left _ he)) hvis ?_
  rintro rfl
  exact (nodup_tree h.nodup).2.2.1 (fst_mem_vertices he)

/-- Below a visited root, no edge starts at `u` or at a vertex that is still unvisited. -/
theorem not_new_below (h : Ready u vis (tree v children rest)) (hv : v ∈ vis) {e : α × α}
    (he : e ∈ edges v children) : ¬ (e.1 = u ∨ e.1 ∉ vis) := by
  have hsrc := fst_mem_vertices he
  rintro (heq | hnot)
  · exact (nodup_tree h.nodup).2.2.1 (heq ▸ hsrc)
  · rcases List.mem_cons.mp hsrc with heq | hmem
    · exact hnot (heq ▸ hv)
    · exact hnot (h.children_subset hv _ hmem)

/-- The forest to the right can be visited when, besides, only vertices outside of it have
been visited. -/
theorem right (h : Ready u vis (tree v children rest)) (hsub : vis ⊆ vis')
    (hnew : ∀ w ∈ vertices rest, w ∈ vis' → w ∈ vis) : Ready u vis' rest := by
  refine ⟨(nodup_tree h.nodup).2.1, fun e he hvis hne => hsub (h.complete e ?_ ?_ hne)⟩
  · exact List.mem_cons_of_mem _ (List.mem_append_right _ he)
  · exact hnew _ ((List.mem_cons.mp (fst_mem_vertices he)).resolve_left hne) hvis

variable [DecidableEq α]

/-- The children of a root can be visited once the root has been discovered. -/
theorem below (h : Ready u vis (tree v children rest)) :
    Ready v (insert v vis) children := by
  refine ⟨(nodup_tree h.nodup).1, fun e he hvis hne => ?_⟩
  refine Finset.mem_insert_of_mem (h.complete e ?_ ?_ ?_)
  · exact List.mem_cons_of_mem _ (List.mem_append_left _ he)
  · exact (Finset.mem_insert.mp hvis).resolve_left hne
  · rintro rfl
    exact (nodup_tree h.nodup).2.2.1 (fst_mem_vertices he)

/-- The forest to the right can be visited after the children. -/
theorem after (h : Ready u vis (tree v children rest)) :
    Ready u (insert v vis ∪ (vertices children).toFinset) rest := by
  refine h.right ((Finset.subset_insert v vis).trans Finset.subset_union_left) ?_
  intro w hw hmem
  have hdisj := (nodup_tree h.nodup).2.2.2
  rw [Finset.mem_union, Finset.mem_insert, List.mem_toFinset] at hmem
  rcases hmem with (rfl | hmem) | hmem
  · exact absurd hw (hdisj w List.mem_cons_self)
  · exact hmem
  · exact absurd hw (hdisj w (List.mem_cons_of_mem v hmem))

end Ready

/-! ## The branch below a vertex -/

variable [DecidableEq α]

/-- The forest below a vertex. -/
def branch (v : α) : Forest α → Forest α
  | nil => nil
  | tree w children rest =>
      if w = v then children
      else if v ∈ vertices children then branch v children else branch v rest

/-- The edges of a branch are edges of the forest. -/
theorem edges_branch_subset (v u : α) (f : Forest α) : edges v (branch v f) ⊆ edges u f := by
  induction f generalizing u with
  | nil => exact List.nil_subset _
  | tree w children rest ihc ihr =>
      rw [branch]
      intro e he
      rw [edges, List.mem_cons, List.mem_append]
      split_ifs at he with hw hmem
      · subst hw
        exact Or.inr (Or.inl he)
      · exact Or.inr (Or.inl (ihc w he))
      · exact Or.inr (Or.inr (ihr u he))

/-- The vertices of a branch are vertices of the forest. -/
theorem vertices_branch_subset (v : α) (f : Forest α) : vertices (branch v f) ⊆ vertices f := by
  rw [← edges_map_snd v (branch v f), ← edges_map_snd v f]
  exact List.map_subset _ (edges_branch_subset v v f)

/-- A branch of a forest without repetitions has none, and does not contain its vertex. -/
theorem nodup_branch {v : α} {f : Forest α} (hv : v ∈ vertices f) (hnodup : (vertices f).Nodup) :
    (v :: vertices (branch v f)).Nodup := by
  induction f with
  | nil => simp [vertices] at hv
  | tree w children rest ihc ihr =>
      rw [vertices, List.nodup_cons, List.nodup_append] at hnodup
      obtain ⟨hw, hc, hr, -⟩ := hnodup
      rw [branch]
      split_ifs with hwv hmem
      · subst hwv
        exact List.nodup_cons.mpr ⟨fun h => hw (List.mem_append_left _ h), hc⟩
      · exact ihc hmem hc
      · refine ihr ?_ hr
        simp only [vertices, List.mem_cons, List.mem_append] at hv
        rcases hv with rfl | hv | hv
        · exact absurd rfl hwv
        · exact absurd hv hmem
        · exact hv

/-- An edge that starts in a branch, or at its vertex, is an edge of the branch. -/
theorem mem_edges_branch {u v : α} {f : Forest α} (hv : v ∈ vertices f)
    (hnodup : (u :: vertices f).Nodup) {e : α × α} (he : e ∈ edges u f)
    (hsource : e.1 ∈ v :: vertices (branch v f)) : e ∈ edges v (branch v f) := by
  have hin : ∀ g, v ∈ vertices g → e.1 ∈ v :: vertices (branch v g) → e.1 ∈ vertices g := by
    intro g hvg hmem
    rcases List.mem_cons.mp hmem with heq | hmem
    · rwa [heq]
    · exact vertices_branch_subset v g hmem
  induction f generalizing u with
  | nil => simp [vertices] at hv
  | tree w children rest ihc ihr =>
      obtain ⟨hc, hr, -, -⟩ := nodup_tree hnodup
      rw [branch] at hsource ⊢
      -- where `v` lies decides which branch it has, and where the edge lies
      split_ifs at hsource ⊢ with hwv hmem
      · subst hwv
        exact mem_edges_children hnodup he hsource
      · have hbelow := List.mem_cons_of_mem w (hin children hmem hsource)
        exact ihc hmem hc (mem_edges_children hnodup he hbelow) hsource
      · have hright : v ∈ vertices rest := by
          rw [vertices, List.mem_cons, List.mem_append] at hv
          tauto
        exact ihr hright hr (mem_edges_rest hnodup he (hin rest hright hsource)) hsource

/-! ## Visiting a forest -/

/-- What a search reports: the discovery of a vertex, the examination of an edge. -/
inductive Event (α : Type*) where
  | discover (v : α)
  | examine (u v : α)
  deriving DecidableEq, Repr

/-- The vertices that are visited once the forest has been gone through. -/
def visited : Finset α → Forest α → Finset α
  | vis, nil => vis
  | vis, tree v children rest =>
      if v ∈ vis then visited vis rest else visited (visited (insert v vis) children) rest

/-- The visit of a vertex `u` that has been discovered, with the forest below it: each edge
is examined, and its target is visited in turn when it has not been before. -/
def visit : α → Finset α → Forest α → List (Event α)
  | _, _, nil => []
  | u, vis, tree v children rest =>
      if v ∈ vis then .examine u v :: visit u vis rest
      else .examine u v :: .discover v :: (visit v (insert v vis) children
        ++ visit u (visited (insert v vis) children) rest)

/-- A visit adds the vertices of the forest. -/
theorem visited_eq {u : α} {vis : Finset α} {f : Forest α} (h : Ready u vis f) :
    visited vis f = vis ∪ (vertices f).toFinset := by
  induction f generalizing u vis with
  | nil => simp [visited, vertices]
  | tree v children rest ihc ihr =>
      rw [visited]
      split_ifs with hv
      · have hsub := h.children_subset hv
        rw [ihr (h.right subset_rfl fun w _ hw => hw)]
        ext w
        simp only [vertices, Finset.mem_union, List.mem_toFinset, List.mem_cons, List.mem_append]
        constructor
        · tauto
        · rintro (hw | rfl | hw | hw)
          · exact Or.inl hw
          · exact Or.inl hv
          · exact Or.inl (hsub w hw)
          · exact Or.inr hw
      · rw [ihc h.below, ihr h.after]
        ext w
        simp only [vertices, Finset.mem_union, Finset.mem_insert, List.mem_toFinset,
          List.mem_cons, List.mem_append]
        tauto

/-! ## What is examined, and what has been discovered by then -/

/-- The vertices discovered after one more event. -/
def observe (seen : Finset α) : Event α → Finset α
  | .discover v => insert v seen
  | .examine _ _ => seen

/-- Of every edge that is examined, `P` holds, applied to its two ends and to whether its
target has been discovered by then. -/
def EveryExamine (P : α → α → Prop → Prop) : Finset α → List (Event α) → Prop
  | _, [] => True
  | seen, .discover v :: events => EveryExamine P (insert v seen) events
  | seen, .examine u v :: events => P u v (v ∈ seen) ∧ EveryExamine P seen events

/-- The condition on a concatenation. -/
theorem everyExamine_append (P : α → α → Prop → Prop) (seen : Finset α)
    (events events' : List (Event α)) :
    EveryExamine P seen (events ++ events') ↔
      EveryExamine P seen events ∧ EveryExamine P (events.foldl observe seen) events' := by
  induction events generalizing seen with
  | nil => simp [EveryExamine]
  | cons event events ih =>
      cases event with
      | discover v => exact ih (insert v seen)
      | examine u v =>
          rw [List.cons_append, EveryExamine, EveryExamine, ih, and_assoc]
          rfl

/-- The condition read off the list of events. -/
theorem everyExamine_iff (P : α → α → Prop → Prop) (seen : Finset α) (events : List (Event α)) :
    EveryExamine P seen events ↔ ∀ pre u v post, events = pre ++ .examine u v :: post →
      P u v (v ∈ pre.foldl observe seen) := by
  constructor
  · rintro h pre u v post rfl
    exact ((everyExamine_append P seen pre _).mp h).2.1
  · intro h
    induction events generalizing seen with
    | nil => trivial
    | cons event events ih =>
        have hrest : EveryExamine P (observe seen event) events :=
          ih _ fun pre u v post heq => h (event :: pre) u v post (by rw [heq]; rfl)
        cases event with
        | discover v => exact hrest
        | examine u v => exact ⟨h [] u v events rfl, hrest⟩

/-- An edge is examined unless the condition "this is not the edge" holds of all that are. -/
theorem everyExamine_ne_iff (seen : Finset α) {events : List (Event α)} {u v : α} :
    EveryExamine (fun u' v' _ => (u', v') ≠ (u, v)) seen events ↔ .examine u v ∉ events := by
  induction events generalizing seen with
  | nil => simp [EveryExamine]
  | cons event events ih =>
      rw [List.mem_cons, not_or]
      cases event with
      | discover w =>
          rw [EveryExamine, ih]
          simp
      | examine u' v' =>
          rw [EveryExamine, ih, Event.examine.injEq, ne_comm, ne_eq, Prod.mk.injEq]

/-- The vertices discovered so far are the ones there were and the ones reported. -/
theorem mem_foldl_observe {seen : Finset α} {events : List (Event α)} {v : α} :
    v ∈ events.foldl observe seen ↔ v ∈ seen ∨ .discover v ∈ events := by
  induction events generalizing seen with
  | nil => simp
  | cons event events ih =>
      rw [List.foldl_cons, ih, List.mem_cons]
      cases event with
      | discover w =>
          unfold observe
          rw [Finset.mem_insert, Event.discover.injEq]
          tauto
      | examine u w => simp [observe]

/-- A visit discovers what it visits. -/
theorem foldl_observe_visit (u : α) (vis : Finset α) (f : Forest α) :
    (visit u vis f).foldl observe vis = visited vis f := by
  induction f generalizing u vis with
  | nil => rfl
  | tree v children rest ihc ihr =>
      rw [visit, visited]
      split_ifs with hv
      · exact ihr u vis
      · rw [List.foldl_cons, List.foldl_cons, List.foldl_append, ← ihr u, ← ihc v]
        rfl

/-- What the discovery of a root adds plays no part in a condition on the edges below it. -/
theorem Ready.forall_edges_below (P : α → α → Prop → Prop) {u v : α} {vis : Finset α}
    {children rest : Forest α} (h : Ready u vis (tree v children rest)) (hv : v ∉ vis) :
    (∀ e ∈ edges v children, e.1 = v ∨ e.1 ∉ insert v vis → P e.1 e.2 (e.2 ∈ insert v vis)) ↔
      ∀ e ∈ edges v children, e.1 = u ∨ e.1 ∉ vis → P e.1 e.2 (e.2 ∈ vis) := by
  obtain ⟨hvc, -, hu, -⟩ := nodup_tree h.nodup
  refine forall₂_congr fun e he => ?_
  have hsrc : e.1 ≠ u := fun heq => hu (heq ▸ fst_mem_vertices he)
  have htgt : e.2 ≠ v := fun heq => (List.nodup_cons.mp hvc).1 (heq ▸ snd_mem_vertices he)
  have hiff : (e.1 = v ∨ e.1 ∉ insert v vis) ↔ (e.1 = u ∨ e.1 ∉ vis) := by
    rw [Finset.mem_insert]
    by_cases heq : e.1 = v
    · rw [heq]
      tauto
    · tauto
  rw [hiff, Finset.mem_insert, or_iff_right htgt]

/-- What the visit of a tree adds plays no part in a condition on the edges to the right. -/
theorem Ready.forall_edges_right (P : α → α → Prop → Prop) {u v : α} {vis : Finset α}
    {children rest : Forest α} (h : Ready u vis (tree v children rest)) :
    (∀ e ∈ edges u rest, e.1 = u ∨ e.1 ∉ insert v vis ∪ (vertices children).toFinset →
        P e.1 e.2 (e.2 ∈ insert v vis ∪ (vertices children).toFinset)) ↔
      ∀ e ∈ edges u rest, e.1 = u ∨ e.1 ∉ vis → P e.1 e.2 (e.2 ∈ vis) := by
  have hmem : ∀ w ∈ vertices rest,
      (w ∈ insert v vis ∪ (vertices children).toFinset ↔ w ∈ vis) := by
    intro w hw
    have hnot : w ∉ v :: vertices children := fun h' => (nodup_tree h.nodup).2.2.2 w h' hw
    simp only [List.mem_cons, not_or] at hnot
    simp only [Finset.mem_union, Finset.mem_insert, List.mem_toFinset]
    tauto
  refine forall₂_congr fun e he => ?_
  rw [hmem e.2 (snd_mem_vertices he)]
  rcases List.mem_cons.mp (fst_mem_vertices he) with heq | hsrc
  · simp only [heq, true_or, forall_const]
  · rw [hmem e.1 hsrc]

/-- **What a visit examines.**  The edges from `u` and from the vertices that it visits for
the first time, each of them when exactly the vertices in `vis` count as discovered. -/
theorem everyExamine_visit (P : α → α → Prop → Prop) {u : α} {vis : Finset α} {f : Forest α}
    (h : Ready u vis f) :
    EveryExamine P vis (visit u vis f) ↔
      ∀ e ∈ edges u f, e.1 = u ∨ e.1 ∉ vis → P e.1 e.2 (e.2 ∈ vis) := by
  induction f generalizing u vis with
  | nil => simp [visit, edges, EveryExamine]
  | tree v children rest ihc ihr =>
      rw [edges, List.forall_mem_cons, List.forall_mem_append, visit]
      split_ifs with hv
      · have hnone : ∀ e ∈ edges v children, e.1 = u ∨ e.1 ∉ vis → P e.1 e.2 (e.2 ∈ vis) :=
          fun e he hnew => absurd hnew (h.not_new_below hv he)
        rw [EveryExamine, ihr (h.right subset_rfl fun w _ hw => hw)]
        simp only [true_or, forall_const]
        tauto
      · rw [EveryExamine, EveryExamine, everyExamine_append, foldl_observe_visit,
          ihc h.below, visited_eq h.below, ihr h.after, h.forall_edges_below P hv,
          h.forall_edges_right P]
        simp only [true_or, forall_const]

end Forest

/-! ## Numbered trees and the search over them -/

/-- A rooted tree whose vertices are the numbers below their count, each once. -/
structure NumberedTree where
  root : ℕ
  children : Forest ℕ
  numbered : (root :: children.vertices).Perm (List.range (children.vertices.length + 1))

namespace NumberedTree

open Forest

/-- The vertices, from the root on. -/
def vertices (t : NumberedTree) : List ℕ := t.root :: t.children.vertices

/-- The edges from parents to children. -/
def edges (t : NumberedTree) : List (ℕ × ℕ) := t.children.edges t.root

/-- The forest below a vertex. -/
def below (t : NumberedTree) (v : ℕ) : Forest ℕ := branch v (.tree t.root t.children .nil)

/-- The visits from the vertices that are still unvisited when their turn comes. -/
def searchFrom (t : NumberedTree) : Finset ℕ → List ℕ → List (Event ℕ)
  | _, [] => []
  | vis, s :: starts =>
      if s ∈ vis then searchFrom t vis starts
      else .discover s :: (visit s (insert s vis) (t.below s)
        ++ searchFrom t (visited (insert s vis) (t.below s)) starts)

/-- The depth-first search of the whole graph. -/
def search (t : NumberedTree) : List (Event ℕ) :=
  t.searchFrom ∅ (List.range t.vertices.length)

/-- No vertex occurs twice. -/
theorem nodup_vertices (t : NumberedTree) : t.vertices.Nodup :=
  t.numbered.nodup_iff.mpr List.nodup_range

/-- The vertices are the numbers below their count. -/
theorem mem_vertices {t : NumberedTree} {v : ℕ} : v ∈ t.vertices ↔ v < t.vertices.length := by
  rw [vertices, t.numbered.mem_iff, List.mem_range, List.length_cons]

/-- Every vertex but the root is the target of an edge. -/
theorem exists_edge {t : NumberedTree} {v : ℕ} (hv : v ∈ t.vertices) (hroot : v ≠ t.root) :
    ∃ e ∈ t.edges, e.2 = v := by
  have hbelow : v ∈ t.children.vertices := (List.mem_cons.mp hv).resolve_left hroot
  rw [← edges_map_snd t.root] at hbelow
  exact List.mem_map.mp hbelow

/-- The parent of a vertex, `none` for the root. -/
def parent? (t : NumberedTree) (v : ℕ) : Option ℕ :=
  (t.edges.find? fun e => e.2 == v).map Prod.fst

/-- The parent of the target of an edge is its source. -/
theorem parent?_snd {t : NumberedTree} {e : ℕ × ℕ} (he : e ∈ t.edges) :
    t.parent? e.2 = some e.1 := by
  have hsome : (t.edges.find? fun e' => e'.2 == e.2).isSome :=
    List.find?_isSome.mpr ⟨e, he, beq_self_eq_true _⟩
  obtain ⟨e', he'⟩ := Option.isSome_iff_exists.mp hsome
  have htarget : e'.2 = e.2 := by simpa using List.find?_some he'
  rw [parent?, he', Option.map_some,
    edge_unique (List.nodup_cons.mp t.nodup_vertices).2 (List.mem_of_find?_eq_some he') he htarget]

/-! ### Subtrees -/

/-- A vertex with everything below it. -/
def subtree (t : NumberedTree) (a : ℕ) : Finset ℕ := insert a (t.below a).vertices.toFinset

variable {t : NumberedTree}

/-- Membership in a subtree, as a list. -/
theorem mem_subtree {a v : ℕ} : v ∈ t.subtree a ↔ v ∈ a :: (t.below a).vertices := by
  unfold subtree
  rw [Finset.mem_insert, List.mem_toFinset, List.mem_cons]

/-- The edges below a vertex are the edges of the tree that start in its subtree. -/
theorem mem_edges_below {a : ℕ} (ha : a ∈ t.vertices) {e : ℕ × ℕ} :
    e ∈ Forest.edges a (t.below a) ↔ e ∈ t.edges ∧ e.1 ∈ t.subtree a := by
  have hroot : e ∈ Forest.edges a (t.below a) → e.1 ∈ t.subtree a :=
    fun he => mem_subtree.mpr (fst_mem_vertices he)
  rw [mem_subtree] at hroot ⊢
  unfold below at hroot ⊢
  rw [branch] at hroot ⊢
  split_ifs at hroot ⊢ with hr hmem
  · subst hr
    exact ⟨fun he => ⟨he, hroot he⟩, fun he => he.1⟩
  · exact ⟨fun he => ⟨edges_branch_subset a t.root t.children he, hroot he⟩,
      fun he => mem_edges_branch hmem t.nodup_vertices he.1 he.2⟩
  · rcases List.mem_cons.mp ha with rfl | ha
    · exact absurd rfl hr
    · exact absurd ha hmem

/-- Below a vertex no vertex occurs twice, nor does the vertex itself occur. -/
theorem nodup_below {a : ℕ} (ha : a ∈ t.vertices) : (a :: (t.below a).vertices).Nodup := by
  refine nodup_branch ?_ ?_
  · simpa [Forest.vertices, vertices] using ha
  · simpa [Forest.vertices, vertices] using t.nodup_vertices

/-- A vertex belongs to its own subtree. -/
theorem mem_subtree_self (a : ℕ) : a ∈ t.subtree a := Finset.mem_insert_self a _

/-- An edge that starts in a subtree ends below the vertex of the subtree. -/
theorem snd_mem_below {a : ℕ} (ha : a ∈ t.vertices) {e : ℕ × ℕ} (he : e ∈ t.edges)
    (hsrc : e.1 ∈ t.subtree a) : e.2 ∈ (t.below a).vertices :=
  snd_mem_vertices ((mem_edges_below ha).mpr ⟨he, hsrc⟩)

/-- An edge ends in a subtree when it ends in its top vertex or starts in the subtree. -/
theorem snd_mem_subtree {a : ℕ} (ha : a ∈ t.vertices) {e : ℕ × ℕ} (he : e ∈ t.edges) :
    e.2 ∈ t.subtree a ↔ e.2 = a ∨ e.1 ∈ t.subtree a := by
  constructor
  · intro hmem
    rcases List.mem_cons.mp (mem_subtree.mp hmem) with heq | hmem
    · exact Or.inl heq
    · -- the edge of the branch with this target is the given one
      rw [← edges_map_snd a, List.mem_map] at hmem
      obtain ⟨e', he', htarget⟩ := hmem
      obtain ⟨hedge, hsrc⟩ := (mem_edges_below ha).mp he'
      rw [← edge_unique (List.nodup_cons.mp t.nodup_vertices).2 hedge he htarget]
      exact Or.inr hsrc
  · rintro (heq | hsrc)
    · rw [heq]
      exact mem_subtree_self a
    · exact mem_subtree.mpr (List.mem_cons_of_mem a (snd_mem_below ha he hsrc))

/-- The subtrees of the vertices of a subtree lie inside it. -/
theorem subtree_subset {a b : ℕ} (ha : a ∈ t.vertices) (hb : b ∈ t.vertices)
    (hba : b ∈ t.subtree a) : t.subtree b ⊆ t.subtree a := by
  intro v hv
  rcases List.mem_cons.mp (mem_subtree.mp hv) with rfl | hv
  · exact hba
  · refine vertices_subset_of_closed (S := {v | v ∈ t.subtree a}) hba ?_ v hv
    intro e he hsrc
    exact (snd_mem_subtree ha ((mem_edges_below hb).mp he).1).mpr (Or.inr hsrc)

/-! ### The search -/

/-- The vertices that are visited when the turn of vertex `s` comes. -/
def covered (t : NumberedTree) (s : ℕ) : Finset ℕ := (Finset.range s).biUnion t.subtree

/-- The covered vertices are those in a subtree of a smaller number. -/
theorem mem_covered {s v : ℕ} : v ∈ t.covered s ↔ ∃ a < s, v ∈ t.subtree a := by
  simp [covered]

/-- After the turn of `s` its subtree is covered as well. -/
theorem mem_covered_succ {s v : ℕ} : v ∈ t.covered (s + 1) ↔ v ∈ t.covered s ∨ v ∈ t.subtree s := by
  rw [covered, Finset.range_add_one, Finset.biUnion_insert, Finset.mem_union, or_comm, covered]

/-- Nothing changes in the turn of a covered vertex. -/
theorem covered_succ_of_mem {s : ℕ} (hs : s ∈ t.vertices) (hcov : s ∈ t.covered s) :
    t.covered (s + 1) = t.covered s := by
  ext v
  rw [mem_covered_succ, or_iff_left_iff_imp]
  intro hv
  obtain ⟨a, has, hsa⟩ := mem_covered.mp hcov
  have ha : a ∈ t.vertices := mem_vertices.mpr (has.trans (mem_vertices.mp hs))
  exact mem_covered.mpr ⟨a, has, subtree_subset ha hs hsa hv⟩

/-- In its turn, an uncovered vertex can be visited with the forest below it. -/
theorem ready_below {s : ℕ} (hs : s ∈ t.vertices) :
    Ready s (insert s (t.covered s)) (t.below s) := by
  refine ⟨nodup_below hs, ?_⟩
  intro e he hvis hne
  rw [Finset.mem_insert] at hvis
  obtain ⟨a, has, hsrc⟩ := mem_covered.mp (hvis.resolve_left hne)
  rw [Finset.mem_insert]
  have ha : a ∈ t.vertices := mem_vertices.mpr (has.trans (mem_vertices.mp hs))
  have hedge := ((mem_edges_below hs).mp he).1
  exact Or.inr (mem_covered.mpr ⟨a, has, (snd_mem_subtree ha hedge).mpr (Or.inr hsrc)⟩)

/-- The turn of an uncovered vertex covers its subtree. -/
theorem visited_below {s : ℕ} (hs : s ∈ t.vertices) :
    visited (insert s (t.covered s)) (t.below s) = t.covered (s + 1) := by
  ext v
  rw [visited_eq (ready_below hs), mem_covered_succ, subtree]
  simp only [Finset.mem_union, Finset.mem_insert]
  tauto

/-- A vertex is numbered before all vertices of which `u` is a descendant, `u` included. -/
def NumberedBefore (t : NumberedTree) (v u : ℕ) : Prop := ∀ a, u ∈ t.subtree a → v < a

/-- While the subtree of an uncovered `s` is visited, the target of an edge has been
discovered exactly when its number is below those of all its ancestors. -/
theorem discovered_iff_numberedBefore {s : ℕ} (hs : s ∈ t.vertices) {e : ℕ × ℕ} (he : e ∈ t.edges)
    (hsrc : e.1 ∈ t.subtree s) (hnew : e.1 ∉ t.covered s) :
    e.2 ∈ insert s (t.covered s) ↔ t.NumberedBefore e.2 e.1 := by
  rw [Finset.mem_insert]
  constructor
  · intro hmem a hsrca
    have hsa : s ≤ a := by
      by_contra hlt
      exact hnew (mem_covered.mpr ⟨a, by omega, hsrca⟩)
    rcases hmem with heq | hmem
    · -- the target lies strictly below `s`
      exact absurd (heq ▸ snd_mem_below hs he hsrc) (List.nodup_cons.mp (nodup_below hs)).1
    · obtain ⟨b, hbs, hmem⟩ := mem_covered.mp hmem
      have hb : b ∈ t.vertices := mem_vertices.mpr (hbs.trans (mem_vertices.mp hs))
      rcases (snd_mem_subtree hb he).mp hmem with heq | hsrcb
      · omega
      · exact absurd (mem_covered.mpr ⟨b, hbs, hsrcb⟩) hnew
  · intro hbefore
    exact Or.inr (mem_covered.mpr ⟨e.2, hbefore s hsrc, mem_subtree_self e.2⟩)

/-- In its turn, an uncovered vertex has the edges of its subtree examined. -/
theorem everyExamine_turn (P : ℕ → ℕ → Prop → Prop) {s : ℕ} (hs : s ∈ t.vertices)
    (hcov : s ∉ t.covered s) :
    EveryExamine P (insert s (t.covered s)) (visit s (insert s (t.covered s)) (t.below s)) ↔
      ∀ e ∈ t.edges, e.1 ∈ t.subtree s → e.1 ∉ t.covered s →
        P e.1 e.2 (t.NumberedBefore e.2 e.1) := by
  have hnew : ∀ u, u = s ∨ u ∉ insert s (t.covered s) ↔ u ∉ t.covered s := by
    intro u
    by_cases heq : u = s
    · simp [heq, hcov]
    · simp [heq]
  rw [everyExamine_visit P (ready_below hs)]
  constructor
  · intro hin e he hsrc huncovered
    have hP := hin e ((mem_edges_below hs).mpr ⟨he, hsrc⟩) ((hnew e.1).mpr huncovered)
    rwa [propext (discovered_iff_numberedBefore hs he hsrc huncovered)] at hP
  · intro hall e hedge huncovered
    obtain ⟨he, hsrc⟩ := (mem_edges_below hs).mp hedge
    rw [hnew] at huncovered
    rw [propext (discovered_iff_numberedBefore hs he hsrc huncovered)]
    exact hall e he hsrc huncovered

/-- The search from the turn of `s` on examines the edges whose source is uncovered. -/
theorem everyExamine_searchFrom (P : ℕ → ℕ → Prop → Prop) {s k : ℕ}
    (hk : s + k = t.vertices.length) :
    EveryExamine P (t.covered s) (t.searchFrom (t.covered s) (List.range' s k)) ↔
      ∀ e ∈ t.edges, e.1 ∉ t.covered s → P e.1 e.2 (t.NumberedBefore e.2 e.1) := by
  induction k generalizing s with
  | zero =>
      -- all turns are over, and every vertex is covered by its own
      refine ⟨fun _ e he huncovered => absurd ?_ huncovered, fun _ => trivial⟩
      have hlt : e.1 < s := by
        have := mem_vertices.mp (fst_mem_vertices he : e.1 ∈ t.vertices)
        omega
      exact mem_covered.mpr ⟨e.1, hlt, mem_subtree_self e.1⟩
  | succ k ih =>
      have hs : s ∈ t.vertices := mem_vertices.mpr (by omega)
      rw [List.range'_succ, searchFrom]
      split_ifs with hcov
      · rw [← covered_succ_of_mem hs hcov]
        exact ih (by omega)
      · rw [EveryExamine, everyExamine_append, foldl_observe_visit, everyExamine_turn P hs hcov,
          visited_below hs, ih (by omega)]
        constructor
        · rintro ⟨hturn, hlater⟩ e he huncovered
          by_cases hsrc : e.1 ∈ t.subtree s
          · exact hturn e he hsrc huncovered
          · exact hlater e he fun hmem => (mem_covered_succ.mp hmem).elim huncovered hsrc
        · intro hall
          refine ⟨fun e he _ huncovered => hall e he huncovered, fun e he huncovered => ?_⟩
          exact hall e he fun hmem => huncovered (mem_covered_succ.mpr (Or.inl hmem))

/-- **What the search examines.**  Every edge of the tree, and the target of an edge has been
discovered by then exactly when it is numbered before all its ancestors. -/
theorem everyExamine_search_iff (t : NumberedTree) (P : ℕ → ℕ → Prop → Prop) :
    EveryExamine P ∅ t.search ↔ ∀ e ∈ t.edges, P e.1 e.2 (t.NumberedBefore e.2 e.1) := by
  have hzero : t.covered 0 = ∅ := rfl
  have hfrom := everyExamine_searchFrom (t := t) P (Nat.zero_add t.vertices.length)
  rw [hzero, ← List.range_eq_range'] at hfrom
  unfold search
  rw [hfrom]
  simp

/-- The search examines the edges of the tree and no others. -/
theorem examine_mem_search {u v : ℕ} : .examine u v ∈ t.search ↔ (u, v) ∈ t.edges := by
  rw [← not_iff_not, ← everyExamine_ne_iff ∅, everyExamine_search_iff]
  constructor
  · intro h hmem
    exact h (u, v) hmem rfl
  · intro h e he heq
    exact h (heq ▸ he)

/-- The search discovers what it covers. -/
theorem foldl_observe_searchFrom {s k : ℕ} (hk : s + k = t.vertices.length) :
    (t.searchFrom (t.covered s) (List.range' s k)).foldl observe (t.covered s)
      = t.covered t.vertices.length := by
  induction k generalizing s with
  | zero => rw [← hk]; rfl
  | succ k ih =>
      have hs : s ∈ t.vertices := mem_vertices.mpr (by omega)
      rw [List.range'_succ, searchFrom]
      split_ifs with hcov
      · rw [← covered_succ_of_mem hs hcov]
        exact ih (by omega)
      · rw [List.foldl_cons, List.foldl_append, observe, foldl_observe_visit, visited_below hs]
        exact ih (by omega)

/-- The search discovers every vertex. -/
theorem discover_mem_search {v : ℕ} (hv : v ∈ t.vertices) : .discover v ∈ t.search := by
  have hzero : t.covered 0 = ∅ := rfl
  have hall := foldl_observe_searchFrom (Nat.zero_add t.vertices.length)
  rw [hzero, ← List.range_eq_range'] at hall
  have hmem : v ∈ t.search.foldl observe ∅ := by
    unfold search
    rw [hall]
    exact mem_covered.mpr ⟨v, mem_vertices.mp hv, mem_subtree_self v⟩
  exact (mem_foldl_observe.mp hmem).resolve_left (Finset.notMem_empty v)

end NumberedTree
