import HuffmanArchiver.CodeLengths

/-! Huffman's algorithm as a textbook has it: the live nodes are a set without any arrangement, and
each step merges the two least of them. The queue of `build_tree` follows it step by step, up to the
order of the two children. -/
namespace HuffmanArchiver.Textbook
open Machine Codes HuffmanTree Queue Forest CodeLengths Library.BinaryHeap Library.GreedyTree

def least : List NodeT → Option NodeT
  | [] => none
  | x :: rest =>
      match least rest with
      | none => some x
      | some y => if nodePtrLess y x then some y else some x

def textbookLoop : (fuel : ℕ) → (live : List NodeT) → (auxCnt : UInt8) → List NodeT
  | 0, live, _ => live
  | fuel+1, live, auxCnt =>
      match least live with
      | none => live
      | some a =>
          match least (live.erase a) with
          | none => live
          | some b => textbookLoop fuel (merge a b auxCnt :: (live.erase a).erase b) (auxCnt+1)

/-- The depths of the bytes in the last tree; zero for a byte that does not occur. -/
def textbookLengths (frequencies : FrequencyTable) : UInt8 → ℕ :=
  match textbookLoop 256 (initialQueue frequencies) 0 with
  | [root] => fun b => (((shape root).depths (rootDepth root)).lookup b).getD 0
  | _ => fun _ => 0

theorem leastSpec {live : List NodeT} (some_node : live ≠ []) :
    ∃ x ∈ live, least live = some x ∧ ∀ y ∈ live, nodeKey x ≤ nodeKey y := by
  induction live with
  | nil => contradiction
  | cons x rest ih =>
    by_cases empty : rest = []
    · subst empty
      exact ⟨x,by simp,rfl,by simp⟩
    · obtain ⟨y,hy,found,below⟩ := ih empty
      simp only [least,found]
      split
      · rename_i less
        refine ⟨y,List.mem_cons_of_mem x hy,rfl,?_⟩
        intro z hz
        rcases List.mem_cons.mp hz with rfl | inside
        · exact ((lessIff y z).mp less).le
        · exact below z inside
      · rename_i less
        have le := (lessFalse y x).mp (by simpa using less)
        refine ⟨x,by simp,rfl,?_⟩
        intro z hz
        rcases List.mem_cons.mp hz with rfl | inside
        · exact le_refl _
        · exact le.trans (below z inside)

theorem leastOf {live rest : List NodeT} {a : NodeT} (perm : live.Perm (a :: rest))
    (first : ∀ x ∈ rest, nodeKey a < nodeKey x) : least live = some a ∧ (live.erase a).Perm rest := by
  have nonempty : live ≠ [] := by rintro rfl; simpa using perm.length_eq
  obtain ⟨x,hx,found,below⟩ := leastSpec nonempty
  have same : x = a := by
    rcases List.mem_cons.mp (perm.mem_iff.mp hx) with same | inside
    · exact same
    · exact absurd (below a (perm.mem_iff.mpr (by simp))) (not_le_of_gt (first x inside))
  subst same
  refine ⟨found,?_⟩
  simpa using perm.erase x

/-- The same tree with the lesser child on the left everywhere. -/
def norm : NodeT → NodeT
  | .leaf f b => .leaf f b
  | .inner f n l r => if nodePtrLess (norm r) (norm l) then .inner f n (norm r) (norm l) else
      .inner f n (norm l) (norm r)

theorem normKey (x : NodeT) : nodeKey (norm x) = nodeKey x := by
  cases x with
  | leaf f b => rfl
  | inner f n l r => unfold norm; split <;> rfl

theorem normRoot (x : NodeT) : rootDepth (norm x) = rootDepth x := by
  cases x with
  | leaf f b => rfl
  | inner f n l r => unfold norm; split <;> rfl

theorem normMerge {x y : NodeT} (aux : UInt8) (less : nodeKey x < nodeKey y) :
    norm (merge x y aux) = merge (norm x) (norm y) aux ∧ norm (merge y x aux) = merge (norm x) (norm y) aux := by
  have keyed : ∀ z : NodeT, (norm z).freq = z.freq := by
    intro z
    cases z with
    | leaf f b => rfl
    | inner f n l r => unfold norm; split <;> rfl
  have xy : nodePtrLess (norm x) (norm y) = true := by rw [lessIff,normKey,normKey]; exact less
  have yx : nodePtrLess (norm y) (norm x) = false := by rw [lessFalse,normKey,normKey]; exact less.le
  simp only [merge,norm,xy,yx,keyed]
  refine ⟨rfl,?_⟩
  rw [add_comm y.freq]
  rfl

theorem normDepths (x : NodeT) (d : ℕ) : ((shape (norm x)).depths d).Perm ((shape x).depths d) := by
  induction x generalizing d with
  | leaf f b => exact List.Perm.refl _
  | inner f n l r hl hr =>
    unfold norm
    split
    · exact ((hr (d+1)).append (hl (d+1))).trans List.perm_append_comm
    · exact (hl (d+1)).append (hr (d+1))

def Distinct (queue : List NodeT) : Prop := (queue.map nodeKey).Nodup

theorem keyByte {x y : NodeT} (same : nodeKey x = nodeKey y) : x.isLeaf = y.isLeaf ∧ x.byte = y.byte := by
  simp only [nodeKey,EmbeddingLike.apply_eq_iff_eq,Prod.mk.injEq] at same
  obtain ⟨_,leaves,bytes⟩ := same
  refine ⟨?_,UInt8.toNat_inj.mp bytes⟩
  cases hx : x.isLeaf <;> cases hy : y.isLeaf <;> simp [hx,hy] at leaves ⊢

theorem initialDistinct (frequencies : FrequencyTable) : Distinct (initialQueue frequencies) := by
  simp only [Distinct,initialQueue,List.map_map]
  refine List.Nodup.map_on ?_ (codedNodup frequencies)
  intro b _ c _ same
  exact (keyByte same).2

theorem startDistinct (frequencies : FrequencyTable) :
    Distinct (makeHeap HuffmanTree.cmp (initialQueue frequencies)) :=
  ((makeHeapPerm HuffmanTree.cmp (initialQueue frequencies)).map nodeKey).nodup_iff.mpr
    (initialDistinct frequencies)

theorem nextDistinct {queue : List NodeT} {aux : UInt8} {r : Round} (n : Numbered queue aux)
    (taken : Taken queue r) (distinct : Distinct queue) : Distinct (r.next aux) := by
  have keys := (taken.perm.map nodeKey).nodup_iff.mpr distinct
  simp only [List.map_cons,List.nodup_cons] at keys
  simp only [Distinct,Round.next,List.map_append,List.map_cons,List.map_nil]
  refine (List.perm_append_singleton _ _).nodup_iff.mpr (List.nodup_cons.mpr ⟨?_,keys.2.2⟩)
  intro inside
  obtain ⟨x,hx,same⟩ := List.mem_map.mp inside
  obtain ⟨leaf,byte⟩ := keyByte same
  have older := n.older x (taken.perm.mem_iff.mp (by simp [hx])) leaf
  rw [byte] at older
  exact absurd older (lt_irrefl _)

theorem strictlyLeast {queue : List NodeT} {r : Round} (taken : Taken queue r) (distinct : Distinct queue) :
    nodeKey r.first ≠ nodeKey r.second ∧
      ∀ x ∈ r.rest, nodeKey r.first < nodeKey x ∧ nodeKey r.second < nodeKey x := by
  have keys := (taken.perm.map nodeKey).nodup_iff.mpr distinct
  simp only [List.map_cons,List.nodup_cons,List.mem_cons,not_or,List.mem_map,not_exists,not_and] at keys
  refine ⟨keys.1.1,fun x hx => ⟨?_,?_⟩⟩
  · exact lt_of_le_of_ne (taken.least x hx).1 (fun same => keys.1.2 x hx same.symm)
  · exact lt_of_le_of_ne (taken.least x hx).2 (fun same => keys.2.1 x hx same.symm)

theorem textbookStep {queue live : List NodeT} {r : Round} (aux : UInt8) (fuel : ℕ) (taken : Taken queue r)
    (distinct : Distinct queue) (sim : live.Perm (queue.map norm)) :
    ∃ live', textbookLoop (fuel+1) live aux = textbookLoop fuel live' (aux+1) ∧
      live'.Perm ((r.next aux).map norm) := by
  obtain ⟨ne,strict⟩ := strictlyLeast taken distinct
  have view := sim.trans (taken.perm.map norm).symm
  simp only [List.map_cons] at view
  have above : ∀ (z : NodeT), (∀ x ∈ r.rest, nodeKey z < nodeKey x) →
      ∀ x ∈ r.rest.map norm, nodeKey (norm z) < nodeKey x := by
    intro z hz x hx
    obtain ⟨y,hy,rfl⟩ := List.mem_map.mp hx
    rw [normKey,normKey]
    exact hz y hy
  have first := above r.first (fun x hx => (strict x hx).1)
  have second := above r.second (fun x hx => (strict x hx).2)
  have after : ∀ (m : NodeT) (l : List NodeT), m = norm (merge r.first r.second aux) → l.Perm (r.rest.map norm) →
      (m :: l).Perm ((r.next aux).map norm) := by
    rintro m l rfl perm
    simp only [Round.next,List.map_append,List.map_cons,List.map_nil]
    exact (perm.cons _).trans (List.perm_append_singleton _ _).symm
  rcases lt_or_gt_of_ne ne with less | more
  · obtain ⟨found,rest⟩ := leastOf view (by
      intro x hx
      rcases List.mem_cons.mp hx with rfl | inside
      · rw [normKey,normKey]; exact less
      · exact first x inside)
    obtain ⟨found2,rest2⟩ := leastOf rest second
    exact ⟨_,by simp only [textbookLoop,found,found2],after _ _ (normMerge aux less).1.symm rest2⟩
  · obtain ⟨found,rest⟩ := leastOf (view.trans (List.Perm.swap _ _ _)) (by
      intro x hx
      rcases List.mem_cons.mp hx with rfl | inside
      · rw [normKey,normKey]; exact more
      · exact second x inside)
    obtain ⟨found2,rest2⟩ := leastOf rest first
    exact ⟨_,by simp only [textbookLoop,found,found2],after _ _ (normMerge aux more).2.symm rest2⟩

theorem textbookRun {count : ℕ} {queue live : List NodeT} {aux : UInt8} {root : NodeT}
    (rounds : Rounds count queue aux root)
    (distinct : Distinct queue) (sim : live.Perm (queue.map norm)) (more : ℕ) :
      textbookLoop (count+more) live aux = [norm root] := by
  induction rounds generalizing live with
  | done =>
    cases List.perm_singleton.mp sim
    rw [Nat.zero_add]
    cases more <;> simp [textbookLoop,least]
  | @round count queue aux r root n taken rest ih =>
    obtain ⟨live',step,sim'⟩ := textbookStep aux (count+more) taken distinct sim
    rw [Nat.add_right_comm,step]
    exact ih (nextDistinct n taken distinct) sim'

theorem initialNorm (frequencies : FrequencyTable) :
    (initialQueue frequencies).map norm = initialQueue frequencies := by
  simp only [initialQueue,List.map_map]
  rfl

theorem lookupOf {l : List (UInt8 × ℕ)} {p : UInt8 × ℕ} (distinct : (l.map Prod.fst).Nodup) (mem : p ∈ l) :
    l.lookup p.1 = some p.2 := by
  induction l with
  | nil => contradiction
  | cons q rest ih =>
    obtain ⟨name,depth⟩ := q
    simp only [List.map_cons,List.nodup_cons] at distinct
    rcases List.mem_cons.mp mem with rfl | inside
    · exact List.lookup_cons_self
    · have other : p.1 ≠ name := fun same => distinct.1 (same ▸ List.mem_map_of_mem inside)
      simp only [List.lookup_cons,beq_eq_false_iff_ne.mpr other,ih distinct.2 inside]

theorem lookupNone {l : List (UInt8 × ℕ)} {b : UInt8} (absent : b ∉ l.map Prod.fst) : l.lookup b = none :=
  List.lookup_eq_none_iff.mpr (fun _ inside =>
    bne_iff_ne.mpr (fun same => absent (same ▸ List.mem_map_of_mem inside)))

theorem textbookSameLengths (frequencies : FrequencyTable) :
    ∃ lens, buildCodeLengths frequencies = .ok lens ∧ ∀ b, (lens b).toNat = textbookLengths frequencies b := by
  obtain ⟨lens,read,⟨none_coded,rfl⟩ | ⟨root,built,table⟩⟩ := lengthsOf frequencies
  · refine ⟨_,read,fun b => ?_⟩
    have empty : initialQueue frequencies = [] := by simp [initialQueue,none_coded]
    simp [textbookLengths,empty,textbookLoop,least]
  · refine ⟨lens,read,fun b => ?_⟩
    have sim : (initialQueue frequencies).Perm
        ((makeHeap HuffmanTree.cmp (initialQueue frequencies)).map norm) := by
      have perm := ((makeHeapSpec cmpDecides (initialQueue frequencies)).2.map norm).symm
      rwa [initialNorm] at perm
    have le := initialLength frequencies
    obtain ⟨count,enough,rounds⟩ := loopRounds _ (startNumbered frequencies) built
    have ran := textbookRun rounds (startDistinct frequencies) sim (256-count)
    rw [Nat.add_sub_cancel' (enough.trans le)] at ran
    have depths := normDepths root (rootDepth root)
    have names : (((shape (norm root)).depths (rootDepth root)).map Prod.fst).Perm (codedBytes frequencies) := by
      refine (depths.map Prod.fst).trans ?_
      rw [BinTree.depthsLeaves _ 0]
      exact table.leaves
    simp only [textbookLengths,ran,normRoot]
    by_cases coded : frequencies b = 0
    · rw [lookupNone (fun inside => codedMem.mp (names.mem_iff.mp inside) coded),table.absent b coded]
      rfl
    · have mem := depths.mem_iff.mpr (leafOf table coded)
      rw [lookupOf (names.nodup_iff.mpr (codedNodup _)) mem]
      rfl

theorem reachableDistinct {frequencies : FrequencyTable} {queue : List NodeT} {aux : UInt8}
    (reached : Reachable frequencies queue aux) : Distinct queue := by
  induction reached with
  | start => exact startDistinct frequencies
  | step before more ran ih =>
    have numbered := reachableNumbered before
    exact nextDistinct numbered (takenUnique more numbered.heap ran) ih

theorem buildTreeSimulatesTextbook (frequencies : FrequencyTable) :
    (∀ queue aux r, Reachable frequencies queue aux → 1 < queue.length → round queue = .ok r →
      (r.first :: r.second :: r.rest).Perm queue ∧
        ∀ x ∈ r.rest, nodePtrLess r.first x = true ∧ nodePtrLess r.second x = true) ∧
    ∃ lens, buildCodeLengths frequencies = .ok lens ∧ ∀ b, (lens b).toNat = textbookLengths frequencies b := by
  refine ⟨?_,textbookSameLengths frequencies⟩
  intro queue aux r reached more ran
  have taken := takenUnique more (reachableNumbered reached).heap ran
  have strict := (strictlyLeast taken (reachableDistinct reached)).2
  exact ⟨taken.perm,fun x hx => ⟨(lessIff _ _).mpr (strict x hx).1,(lessIff _ _).mpr (strict x hx).2⟩⟩

end HuffmanArchiver.Textbook
