import Mathlib.Data.List.Nodup
import Mathlib.Data.List.Perm.Subperm
import Mathlib.Logic.Relation

/-!
Walking a forest with a work list. The list is walked from the front while the
children of each node are appended to its end, and no node is marked as visited.
Where each node has one parent, the walk from a node ends as soon as that node is
not below itself, and what it has walked then is the node with all that is below.
-/

set_option autoImplicit false
set_option relaxedAutoImplicit false

namespace DirWatcher.Foundation.ParentLinks

variable {α : Type*} {children : α → List α}

/-- Walks the list `pending`, for at most `fuel` nodes; `none` when the fuel runs
out before the list does. -/
def traverse (children : α → List α) : ℕ → List α → Option (List α)
  | _, [] => some []
  | 0, _ :: _ => none
  | fuel + 1, node :: rest => (traverse children fuel (rest ++ children node)).map (node :: ·)

/-- The second node is a child of the first. -/
def Link (children : α → List α) (node child : α) : Prop := child ∈ children node

/-- The second node is the first or lies below it. -/
def Below (children : α → List α) : α → α → Prop := Relation.ReflTransGen (Link children)

/-- A node that can be reached from itself by one or more links. -/
def OnCycle (children : α → List α) (node : α) : Prop := Relation.TransGen (Link children) node node

/-! ### What a finished walk has met -/

/-- A finished walk has walked the list it was given and the children of all it has
walked. -/
theorem traverse_eq_append_flatMap {fuel : ℕ} {pending walked : List α}
    (hwalk : traverse children fuel pending = some walked) :
    walked = pending ++ walked.flatMap children := by
  induction fuel generalizing pending walked with
  | zero =>
    cases pending with
    | nil => simp [traverse] at hwalk; simp [hwalk]
    | cons => simp [traverse] at hwalk
  | succ fuel ih =>
    cases pending with
    | nil => simp [traverse] at hwalk; simp [hwalk]
    | cons node rest =>
      obtain ⟨later, hlater, rfl⟩ := Option.map_eq_some_iff.mp hwalk
      rw [List.flatMap_cons, List.cons_append, ← List.append_assoc, ← ih hlater]

/-- Everything in the walked list lies below a node of the list at the start. -/
theorem exists_below_of_mem_traverse {fuel : ℕ} {pending walked : List α}
    (hwalk : traverse children fuel pending = some walked) {node : α} (hnode : node ∈ walked) :
    ∃ start ∈ pending, Below children start node := by
  induction fuel generalizing pending walked with
  | zero => cases pending <;> simp_all [traverse]
  | succ fuel ih =>
    cases pending with
    | nil => simp_all [traverse]
    | cons first rest =>
      obtain ⟨later, hlater, rfl⟩ := Option.map_eq_some_iff.mp hwalk
      rcases List.mem_cons.mp hnode with rfl | hmem
      · exact ⟨node, List.mem_cons_self, Relation.ReflTransGen.refl⟩
      · obtain ⟨start, hstart, hbelow⟩ := ih hlater hmem
        rcases List.mem_append.mp hstart with hrest | hchild
        · exact ⟨start, List.mem_cons_of_mem _ hrest, hbelow⟩
        · exact ⟨first, List.mem_cons_self, Relation.ReflTransGen.head hchild hbelow⟩

theorem mem_traverse_iff {fuel : ℕ} {root : α} {walked : List α}
    (hwalk : traverse children fuel [root] = some walked) {node : α} :
    node ∈ walked ↔ Below children root node := by
  have hclosed := traverse_eq_append_flatMap hwalk
  constructor
  · intro hnode
    obtain ⟨start, hstart, hbelow⟩ := exists_below_of_mem_traverse hwalk hnode
    rwa [List.mem_singleton.mp hstart] at hbelow
  · intro hbelow
    induction hbelow with
    | refl =>
      rw [hclosed]
      simp
    | tail _ hlink ih =>
      rw [hclosed]
      exact List.mem_append_right _ (List.mem_flatMap.mpr ⟨_, ih, hlink⟩)

/-! ### The end of the walk -/

/-- The nodes that have a parent lie in a finite list, and each has only one. -/
structure Forest (children : α → List α) (nodes : List α) : Prop where
  mem : ∀ node, ∀ child ∈ children node, child ∈ nodes
  nodup : ∀ node, (children node).Nodup
  oneParent : ∀ first second child, child ∈ children first → child ∈ children second →
    first = second

/-- The state of a walk from `root` that has walked `walked` and has `pending`
still before it. -/
structure Walking (children : α → List α) (root : α) (walked pending : List α) : Prop where
  nodup : (walked ++ pending).Nodup
  below : ∀ node ∈ walked ++ pending, Below children root node
  source : ∀ node ∈ walked ++ pending, node = root ∨ ∃ parent ∈ walked, node ∈ children parent

/-- One step of the walk: the children of the node at the front are all new. -/
theorem Walking.step {nodes : List α} (hforest : Forest children nodes) {root : α}
    (hroot : ¬ OnCycle children root) {walked rest : List α} {node : α}
    (hwalking : Walking children root walked (node :: rest)) :
    Walking children root (walked ++ [node]) (rest ++ children node) := by
  have hsplit : (walked ++ [node]) ++ (rest ++ children node) =
      (walked ++ node :: rest) ++ children node := by simp
  have hnode : Below children root node := hwalking.below node (by simp)
  refine ⟨?_, ?_, ?_⟩
  · rw [hsplit]
    refine List.nodup_append.mpr ⟨hwalking.nodup, hforest.nodup node, ?_⟩
    rintro other hother child hchild rfl
    rcases hwalking.source other hother with rfl | ⟨parent, hparent, hlink⟩
    · exact hroot (Relation.TransGen.tail' hnode hchild)
    · obtain rfl := hforest.oneParent parent node other hlink hchild
      exact (List.nodup_append.mp hwalking.nodup).2.2 _ hparent _ List.mem_cons_self rfl
  · rw [hsplit]
    intro other hother
    rcases List.mem_append.mp hother with hold | hchild
    · exact hwalking.below other hold
    · exact hnode.tail hchild
  · rw [hsplit]
    intro other hother
    rcases List.mem_append.mp hother with hold | hchild
    · rcases hwalking.source other hold with hroot' | ⟨parent, hparent, hlink⟩
      · exact Or.inl hroot'
      · exact Or.inr ⟨parent, List.mem_append_left _ hparent, hlink⟩
    · exact Or.inr ⟨node, by simp, hchild⟩

theorem Walking.length_le {nodes : List α} (hforest : Forest children nodes) {root : α}
    {walked pending : List α} (hwalking : Walking children root walked pending) :
    (walked ++ pending).length ≤ nodes.length + 1 := by
  have hsub : walked ++ pending ⊆ root :: nodes := by
    intro node hnode
    rcases hwalking.source node hnode with rfl | ⟨parent, -, hlink⟩
    · exact List.mem_cons_self
    · exact List.mem_cons_of_mem _ (hforest.mem parent node hlink)
  exact (hwalking.nodup.subperm hsub).length_le

theorem Walking.exists_traverse {nodes : List α} (hforest : Forest children nodes) {root : α}
    (hroot : ¬ OnCycle children root) {fuel : ℕ} {walked pending : List α}
    (hwalking : Walking children root walked pending)
    (hfuel : nodes.length + 1 ≤ fuel + walked.length) :
    ∃ result, traverse children fuel pending = some result := by
  induction fuel generalizing walked pending with
  | zero =>
    cases pending with
    | nil => exact ⟨[], rfl⟩
    | cons node rest =>
      have hlength := hwalking.length_le hforest
      simp only [List.length_append, List.length_cons] at hlength
      omega
  | succ fuel ih =>
    cases pending with
    | nil => exact ⟨[], rfl⟩
    | cons node rest =>
      obtain ⟨result, hresult⟩ := ih (hwalking.step hforest hroot) (by simp; omega)
      exact ⟨node :: result, by simp [traverse, hresult]⟩

theorem walking_start (children : α → List α) (root : α) : Walking children root [] [root] := by
  refine ⟨by simp, ?_, by simp⟩
  intro node hnode
  obtain rfl : node = root := by simpa using hnode
  exact Relation.ReflTransGen.refl

/-- The walk from a node that is not below itself ends, and one unit of fuel for
each node of the forest and one more are enough. -/
theorem exists_traverse {nodes : List α} (hforest : Forest children nodes) {root : α}
    (hroot : ¬ OnCycle children root) {fuel : ℕ} (hfuel : nodes.length + 1 ≤ fuel) :
    ∃ result, traverse children fuel [root] = some result := by
  exact (walking_start children root).exists_traverse hforest hroot (by simpa using hfuel)

/-! ### Finished walks -/

section Finished

variable [DecidableEq α]

/-- A child comes up in a finished walk at least as often as its parent. -/
theorem count_le_of_link {fuel : ℕ} {root parent child : α} {walked : List α}
    (hwalk : traverse children fuel [root] = some walked) (hlink : Link children parent child) :
    walked.count parent + [root].count child ≤ walked.count child := by
  have hcount :
      walked.count child = [root].count child + (walked.flatMap children).count child := by
    conv_lhs => rw [traverse_eq_append_flatMap hwalk, List.count_append]
  have hsum : walked.count parent ≤ (walked.flatMap children).count child := by
    rw [List.count_flatMap]
    clear hwalk hcount
    induction walked with
    | nil => simp
    | cons first rest ih =>
      rw [List.map_cons, List.sum_cons, List.count_cons, Nat.add_comm]
      refine Nat.add_le_add ?_ ih
      split_ifs with hfirst
      · obtain rfl : first = parent := by simpa using hfirst
        exact List.count_pos_iff.mpr hlink
      · exact Nat.zero_le _
  omega

/-- The walk from a node that is below itself does not end. -/
theorem not_onCycle_of_traverse {fuel : ℕ} {root : α} {walked : List α}
    (hwalk : traverse children fuel [root] = some walked) : ¬ OnCycle children root := by
  intro hcycle
  have hbelow : ∀ node, Below children root node → walked.count root ≤ walked.count node := by
    intro node hnode
    induction hnode with
    | refl => exact Nat.le_refl _
    | tail _ hlink ih =>
      exact Nat.le_trans ih (Nat.le_trans (Nat.le_add_right _ _) (count_le_of_link hwalk hlink))
  obtain ⟨parent, hparent, hlink⟩ := Relation.TransGen.tail'_iff.mp hcycle
  have hagain := count_le_of_link hwalk hlink
  have honce : [root].count root = 1 := by simp
  have hle := hbelow parent hparent
  omega

end Finished

/-- Each node of the list but the root comes after one of its parents. -/
def Led (children : α → List α) (root : α) (list : List α) : Prop :=
  ∀ front node back, list = front ++ node :: back →
    node = root ∨ ∃ parent ∈ front, Link children parent node

theorem Led.append {root : α} {list more : List α} (hled : Led children root list)
    (hmore : ∀ node ∈ more, ∃ parent ∈ list, Link children parent node) :
    Led children root (list ++ more) := by
  intro front node back hsplit
  rcases List.append_eq_append_iff.mp hsplit with ⟨between, rfl, hrest⟩ | ⟨between, rfl, hrest⟩
  · refine Or.inr ?_
    obtain ⟨parent, hparent, hlink⟩ := hmore node (by rw [hrest]; simp)
    exact ⟨parent, List.mem_append_left _ hparent, hlink⟩
  · cases between with
    | nil =>
      obtain ⟨parent, hparent, hlink⟩ :=
        hmore node (by rw [List.nil_append] at hrest; simp [← hrest])
      exact Or.inr ⟨parent, by simpa using hparent, hlink⟩
    | cons first between =>
      rw [List.cons_append, List.cons.injEq] at hrest
      obtain ⟨rfl, rfl⟩ := hrest
      exact hled front node between rfl

/-- What a walk keeps to its end. -/
theorem Walking.finish {nodes : List α} (hforest : Forest children nodes) {root : α}
    (hroot : ¬ OnCycle children root) {fuel : ℕ} {walked pending rest : List α}
    (hwalking : Walking children root walked pending) (hled : Led children root (walked ++ pending))
    (hwalk : traverse children fuel pending = some rest) :
    (walked ++ rest).Nodup ∧ Led children root (walked ++ rest) := by
  induction fuel generalizing walked pending rest with
  | zero =>
    cases pending with
    | nil =>
      obtain rfl : [] = rest := by simpa [traverse] using hwalk
      exact ⟨hwalking.nodup, hled⟩
    | cons => simp [traverse] at hwalk
  | succ fuel ih =>
    cases pending with
    | nil =>
      obtain rfl : [] = rest := by simpa [traverse] using hwalk
      exact ⟨hwalking.nodup, hled⟩
    | cons node later =>
      obtain ⟨more, hmore, rfl⟩ := Option.map_eq_some_iff.mp hwalk
      have hnext : Led children root ((walked ++ [node]) ++ (later ++ children node)) := by
        have hled' := hled.append fun child (hchild : child ∈ children node) ↦
          ⟨node, by simp, hchild⟩
        simpa using hled'
      simpa using ih (hwalking.step hforest hroot) hnext hmore

theorem led_start (children : α → List α) (root : α) : Led children root [root] := by
  intro front node back hsplit
  cases front with
  | nil =>
    rw [List.nil_append, List.cons.injEq] at hsplit
    exact Or.inl hsplit.1.symm
  | cons first front => simp at hsplit

/-- More fuel changes nothing. -/
theorem traverse_unique {fuel more : ℕ} {pending first second : List α}
    (hfirst : traverse children fuel pending = some first)
    (hsecond : traverse children more pending = some second) : first = second := by
  induction fuel generalizing more pending first second with
  | zero =>
    cases pending with
    | nil => simp_all [traverse]
    | cons => simp [traverse] at hfirst
  | succ fuel ih =>
    cases pending with
    | nil => simp_all [traverse]
    | cons node rest =>
      cases more with
      | zero => simp [traverse] at hsecond
      | succ more =>
        obtain ⟨later, hlater, rfl⟩ := Option.map_eq_some_iff.mp hfirst
        obtain ⟨other, hother, rfl⟩ := Option.map_eq_some_iff.mp hsecond
        rw [ih hlater hother]

/-- Two walks over the same links, each with its own order of the children: both end, with
the same nodes, or none does. -/
theorem traverse_perm [DecidableEq α] {others : α → List α} {nodes : List α}
    (hlinks : ∀ node, (others node).Perm (children node)) (hforest : Forest children nodes)
    (root : α) (fuel more : ℕ) (hfuel : nodes.length + 1 ≤ fuel) (hmore : nodes.length + 1 ≤ more) :
    traverse others fuel [root] = none ∧ traverse children more [root] = none ∨
      ∃ first second, traverse others fuel [root] = some first ∧
        traverse children more [root] = some second ∧ first.Perm second := by
  have hsame : Link others = Link children :=
    funext fun node ↦ funext fun child ↦ propext (hlinks node).mem_iff
  have hothers : Forest others nodes :=
    ⟨fun node child hchild ↦ hforest.mem node child ((hlinks node).mem_iff.mp hchild),
      fun node ↦ (hlinks node).nodup_iff.mpr (hforest.nodup node),
      fun first second child hfirst hsecond ↦ hforest.oneParent first second child
        ((hlinks first).mem_iff.mp hfirst) ((hlinks second).mem_iff.mp hsecond)⟩
  by_cases hcycle : OnCycle children root
  · have hcycle' : OnCycle others root := by rwa [OnCycle, hsame]
    refine Or.inl ⟨?_, ?_⟩ <;> refine Option.eq_none_iff_forall_ne_some.mpr fun walked hwalk ↦ ?_
    · exact not_onCycle_of_traverse hwalk hcycle'
    · exact not_onCycle_of_traverse hwalk hcycle
  · have hcycle' : ¬ OnCycle others root := by rwa [OnCycle, hsame]
    obtain ⟨first, hfirst⟩ := exists_traverse hothers hcycle' hfuel
    obtain ⟨second, hsecond⟩ := exists_traverse hforest hcycle hmore
    refine Or.inr ⟨first, second, hfirst, hsecond, ?_⟩
    have hfirstNodup :=
      ((walking_start others root).finish hothers hcycle' (led_start _ root) hfirst).1
    have hsecondNodup :=
      ((walking_start children root).finish hforest hcycle (led_start _ root) hsecond).1
    refine (List.perm_ext_iff_of_nodup (by simpa using hfirstNodup)
      (by simpa using hsecondNodup)).mpr fun node ↦ ?_
    rw [mem_traverse_iff hfirst, mem_traverse_iff hsecond, Below, hsame, Below]

/-- In a list without repetition a node that is led by its only parent comes after it. -/
theorem Led.idxOf_lt [DecidableEq α] {root parent child : α} {list : List α}
    (hled : Led children root list) (hnodup : list.Nodup) (hchild : child ∈ list)
    (hroot : child ≠ root) (hparent : ∀ other, Link children other child → other = parent) :
    list.idxOf parent < list.idxOf child := by
  obtain ⟨front, back, rfl⟩ := List.append_of_mem hchild
  obtain ⟨other, hother, hlink⟩ := (hled front child back rfl).resolve_left hroot
  obtain rfl := hparent other hlink
  have hnot : child ∉ front := fun hfront ↦
    (List.nodup_append.mp hnodup).2.2 child hfront child List.mem_cons_self rfl
  rw [List.idxOf_append_of_mem hother, List.idxOf_append_of_notMem hnot]
  exact Nat.lt_add_right _ (List.idxOf_lt_length_iff.mpr hother)

end DirWatcher.Foundation.ParentLinks
