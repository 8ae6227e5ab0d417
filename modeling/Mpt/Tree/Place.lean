import Mpt.Tree.Insert

/-! # Where a node is inserted

The searches for a position are described by the nodes that match, in their order.
-/

namespace Mpt.Tree

variable {h : Nodes} {up prev : Option Nat} {is : List Nat} {same : Nat → Bool}

/-- What is before a node of a list. -/
theorem Chain.prev_eq {front back : List Nat} {c : Nat} (chain : Chain h up prev (front ++ c :: back)) :
    (h.node c).prev = front.getLast?.or prev := by
  induction front generalizing prev with
  | nil => exact chain.1
  | cons i front ih =>
      rw [ih chain.2.2.2]
      cases front with
      | nil => rfl
      | cons j front => rw [List.getLast?_cons_cons, List.getLast?_cons]; rfl

/-- The rest of a list, from one of its nodes on. -/
theorem Chain.suffix {front back : List Nat} (chain : Chain h up prev (front ++ back)) :
    Chain h up (front.getLast?.or prev) back := by
  induction front generalizing prev with
  | nil => exact chain
  | cons i front ih =>
      have rest := ih chain.2.2.2
      cases front with
      | nil => exact rest
      | cons j front =>
          rw [List.getLast?_cons_cons]
          rw [List.getLast?_cons] at rest ⊢
          exact rest

/-- The nodes that match, from the current one on. -/
theorem locateCurrent_eq {i : Nat} (chain : Chain h up prev (i :: is)) {pos : Int} (after : 0 < pos)
    {fuel : Nat} (enough : is.length < fuel) :
    h.locateCurrent same fuel i pos = ((i :: is).filter same)[(pos - 1).toNat]? := by
  induction is generalizing i prev pos fuel with
  | nil =>
      have some_ : 0 < fuel := Nat.lt_of_le_of_lt (Nat.zero_le _) enough
      obtain ⟨fuel, rfl⟩ := Nat.exists_eq_succ_of_ne_zero (Nat.ne_of_gt some_)
      have next : (h.node i).next = none := chain.2.1
      simp only [Nodes.locateCurrent, next]
      by_cases hit : same i
      · by_cases one : pos - 1 = 0
        · simp [hit, one]
        · have more : (pos - 1).toNat ≠ 0 := by omega
          simp [hit, one]
          omega
      · simp [hit]
  | cons j is ih =>
      have some_ : 0 < fuel := Nat.lt_of_le_of_lt (Nat.zero_le _) enough
      obtain ⟨fuel, rfl⟩ := Nat.exists_eq_succ_of_ne_zero (Nat.ne_of_gt some_)
      have next : (h.node i).next = some j := chain.2.1
      have enough' : is.length < fuel := by
        rw [List.length_cons] at enough
        omega
      simp only [Nodes.locateCurrent, next]
      by_cases hit : same i
      · by_cases one : pos - 1 = 0
        · simp [hit, one]
        · rw [if_pos hit, if_neg one, ih chain.2.2.2 (by omega) enough', List.filter_cons_of_pos hit]
          have eq : (pos - 1).toNat = (pos - 1 - 1).toNat + 1 := by omega
          rw [eq, List.getElem?_cons_succ]
      · rw [if_neg hit, ih chain.2.2.2 after enough', List.filter_cons_of_neg hit]

/-- The nodes that match, before the current one. -/
theorem locatePrevious_eq {front back : List Nat} {c : Nat}
    (chain : Chain h up none (front ++ c :: back)) {pos : Int} (before : pos < 0) {fuel : Nat}
    (enough : front.length ≤ fuel) :
    h.locatePrevious same fuel c pos = (front.filter same).reverse[(-pos - 1).toNat]? := by
  induction fuel generalizing front back c pos with
  | zero =>
      obtain rfl : front = [] := List.eq_nil_of_length_eq_zero (Nat.le_zero.mp enough)
      rfl
  | succ fuel ih =>
      rcases List.eq_nil_or_concat front with rfl | ⟨front, p, rfl⟩
      · have none : (h.node c).prev = none := chain.prev_eq
        simp [Nodes.locatePrevious, none]
      · have link : (h.node c).prev = some p := by
          rw [chain.prev_eq]
          simp
        have rest : Chain h up none (front ++ p :: (c :: back)) := by simpa using chain
        have enough' : front.length ≤ fuel := by simpa using enough
        simp only [Nodes.locatePrevious, link]
        rw [List.concat_eq_append, List.filter_append, List.reverse_append]
        by_cases hit : same p
        · by_cases one : pos + 1 = 0
          · have eq : (-pos - 1).toNat = 0 := by omega
            simp [hit, one, eq]
          · have eq : (-pos - 1).toNat = (-(pos + 1) - 1).toNat + 1 := by omega
            rw [if_pos hit, if_neg one, ih rest (by omega) enough', eq]
            simp [hit]
        · rw [if_neg hit, ih rest before enough']
          simp [hit]

/-- A search without identifiers is one where all nodes match. -/
theorem predecessorLoop_eq (fuel node : Nat) {pos : Int} (before : pos < 0) :
    h.predecessorLoop (fuel + 1) (some node) pos = h.locatePrevious (fun _ => true) fuel node pos := by
  induction fuel generalizing node pos with
  | zero => simp [Nodes.predecessorLoop, Nodes.locatePrevious, Int.ne_of_lt before]
  | succ fuel ih =>
      rw [Nodes.predecessorLoop, if_neg (Int.ne_of_lt before), Nodes.locatePrevious]
      cases link : (h.node node).prev with
      | none => simp [Nodes.predecessorLoop]
      | some p =>
          simp only
          by_cases one : pos + 1 = 0
          · simp [one, Nodes.predecessorLoop]
          · rw [ih p (by omega), if_neg one]
            rfl

theorem successorLoop_eq (fuel node : Nat) (pos : Int) :
    h.successorLoop fuel (some node) pos = h.locateCurrent (fun _ => true) fuel node pos := by
  induction fuel generalizing node pos with
  | zero => rfl
  | succ fuel ih =>
      rw [Nodes.successorLoop, Nodes.locateCurrent]
      by_cases one : pos - 1 = 0
      · simp [one]
      · cases link : (h.node node).next with
        | none => cases fuel <;> simp [one, Nodes.successorLoop]
        | some p => simp [one, ih]

theorem gnodePos_eq (node : Nat) (pos : Int) :
    h.gnodePos node pos = h.nodeLocateAt (fun _ => true) node pos := by
  rw [Nodes.gnodePos, Nodes.nodeLocateAt]
  by_cases before : pos < 0
  · rw [if_pos before, if_neg (Int.ne_of_lt before), if_pos before, predecessorLoop_eq _ _ before]
  · by_cases zero : pos = 0
    · simp [zero]
    · rw [if_neg before, if_pos zero, if_neg zero, if_neg before, successorLoop_eq]

theorem gnodePos_all : h.gnodePos = h.nodeLocateAt fun _ => true :=
  funext fun node => funext fun pos => gnodePos_eq node pos

/-- A place in a list. -/
inductive Spot where
  | before (x : Nat)
  | after (x : Nat)
  deriving DecidableEq

/-- The place for a position: before the `pos`-th one of some nodes in the list or behind the last
    one, or behind a predecessor of the last one or before the first one.  When there are no such
    nodes, it is the end of the list. -/
def spot (is ms : List Nat) (pos : Int) : Option Spot :=
  match ms with
  | [] => is.getLast?.map .after
  | m :: ms =>
      if 0 < pos then
        match (m :: ms)[(pos - 1).toNat]? with
        | some x => some (.before x)
        | none => (m :: ms).getLast?.map .after
      else
        match (m :: ms).reverse[(-pos).toNat]? with
        | some x => some (.after x)
        | none => some (.before m)

/-- A node is put into a place. -/
def Nodes.put (h : Nodes) (n : Nat) : Option Spot → Nodes
  | some (.before x) => h.gnodeBefore x n
  | some (.after x) => h.gnodeAfter x n
  | none => h

/-- The position can be counted from the other end: the negative of the least `int` is no
    position. -/
def Counts (ms : List Nat) (pos : Int) : Prop := pos = -2 ^ 31 → ms = [] ∨ 2 ^ 31 < ms.length

section Search

variable {first : Nat} {rest : List Nat}

theorem gnodeLast_chain (chain : Chain h up none (first :: rest)) (enough : rest.length < h.size) :
    (first :: rest).getLast? = some (h.gnodeLast first) := by
  obtain ⟨front, last, eq⟩ := List.eq_nil_or_concat (first :: rest) |>.resolve_left (List.cons_ne_nil _ _)
  have end_ : (first :: rest).getLast? = some last := by rw [eq]; simp
  rw [Nodes.gnodeLast, lastLoop_chain chain end_ (Nat.le_of_lt enough), end_]

/-- The last match of a list. -/
theorem nodeLocateAt_last (chain : Chain h up none (first :: rest)) (enough : rest.length < h.size) :
    h.nodeLocateAt same first 0 = ((first :: rest).filter same).getLast? := by
  have last := gnodeLast_chain chain enough
  obtain ⟨front, eq⟩ := List.getLast?_eq_some_iff.mp last
  rw [Nodes.nodeLocateAt, if_pos rfl]
  generalize h.gnodeLast first = l at last eq
  have length : front.length = rest.length := by
    have := congrArg List.length eq
    simpa using this.symm
  rw [eq] at chain ⊢
  simp only [List.filter_append]
  by_cases hit : same l
  · simp [hit]
  · rw [if_neg hit, locatePrevious_eq chain (by decide) (by omega), List.filter_cons_of_neg hit,
      List.filter_nil, List.append_nil, ← List.head?_reverse, List.head?_eq_getElem?]
    rfl

theorem nodeLocateAt_pos (chain : Chain h up none (first :: rest)) (enough : rest.length < h.size)
    {pos : Int} (after : 0 < pos) :
    h.nodeLocateAt same first pos = ((first :: rest).filter same)[(pos - 1).toNat]? := by
  rw [Nodes.nodeLocateAt, if_neg (Int.ne_of_gt after), if_neg (Int.not_lt.mpr (Int.le_of_lt after)),
    locateCurrent_eq chain after enough]

/-- From the first match on the search counts the same. -/
theorem nodeLocateAt_head (chain : Chain h up none (first :: rest)) (enough : rest.length < h.size)
    {m : Nat} {ms : List Nat} (matches_ : (first :: rest).filter same = m :: ms) {pos : Int}
    (after : 0 < pos) : h.nodeLocateAt same m pos = (m :: ms)[(pos - 1).toNat]? := by
  obtain ⟨front, back, eq, _, hit, others⟩ := List.filter_eq_cons_iff.mp matches_
  have length : front.length + back.length = rest.length := by
    have := congrArg List.length eq
    simp only [List.length_append, List.length_cons] at this
    omega
  rw [eq] at chain
  rw [Nodes.nodeLocateAt, if_neg (Int.ne_of_gt after), if_neg (Int.not_lt.mpr (Int.le_of_lt after)),
    locateCurrent_eq chain.suffix after (by omega), List.filter_cons_of_pos hit, others]

/-- From the last match on the search goes back. -/
theorem nodeLocateAt_back (chain : Chain h up none (first :: rest)) (enough : rest.length < h.size)
    {ms : List Nat} {l : Nat} (matches_ : (first :: rest).filter same = ms ++ [l]) {pos : Int}
    (before : pos < 0) : h.nodeLocateAt same l pos = (ms ++ [l]).reverse[(-pos).toNat]? := by
  obtain ⟨front, tail, eq, others, hit⟩ := List.filter_eq_append_iff.mp matches_
  obtain ⟨skip, back, rfl, none, _, _⟩ := List.filter_eq_cons_iff.mp hit
  have length : front.length + skip.length + back.length = rest.length := by
    have := congrArg List.length eq
    simp only [List.length_append, List.length_cons] at this
    omega
  rw [eq, ← List.append_assoc] at chain
  have skipped : skip.filter same = [] := List.filter_eq_nil_iff.mpr none
  rw [Nodes.nodeLocateAt, if_neg (Int.ne_of_lt before), if_pos before,
    locatePrevious_eq chain before (by rw [List.length_append]; omega), List.filter_append, others,
    skipped, List.append_nil, List.reverse_append, List.reverse_singleton, List.singleton_append]
  have eq : (-pos).toNat = (-pos - 1).toNat + 1 := by omega
  rw [eq, List.getElem?_cons_succ]

/-- The node is put into its place. -/
theorem insertAt_spot (chain : Chain h up none (first :: rest)) (enough : rest.length < h.size)
    {pos : Int} (counts : Counts ((first :: rest).filter same) pos) (n : Nat) :
    h.insertAt (h.nodeLocateAt same) first pos n =
      h.put n (spot (first :: rest) ((first :: rest).filter same) pos) := by
  have last : h.nodeLocateAt same first 0 = _ := nodeLocateAt_last chain enough
  have one : h.nodeLocateAt same first 1 = ((first :: rest).filter same).head? := by
    rw [nodeLocateAt_pos chain enough (by decide), List.head?_eq_getElem?]
    rfl
  cases matches_ : (first :: rest).filter same with
  | nil =>
      rw [matches_] at last one
      have end_ := gnodeLast_chain chain enough
      have start : h.nodeLocateAt same first (if 0 < pos then 1 else 0) = none := by
        split
        · exact one
        · exact last
      simp only [Nodes.insertAt, start, spot, end_, Nodes.put]
      simp [Nodes.gnodePos]
  | cons m ms =>
      rw [matches_] at last one counts
      rw [List.head?_cons] at one
      obtain ⟨front, l, eq⟩ := List.eq_nil_or_concat (m :: ms) |>.resolve_left (List.cons_ne_nil _ _)
      rw [List.concat_eq_append] at eq
      have back := fun {pos : Int} (before : pos < 0) =>
        nodeLocateAt_back chain enough (matches_.trans eq) before
      have end_ : (m :: ms).getLast? = some l := by rw [eq]; simp
      rw [end_] at last
      by_cases after : 0 < pos
      · have from_ := nodeLocateAt_head chain enough matches_ after
        have forward : ¬ pos < 0 := by omega
        simp only [Nodes.insertAt, if_pos after, one, spot, if_neg forward, last, end_]
        by_cases one' : pos = 1
        · simp [one', Nodes.put]
        · have other : ¬ (pos = 0 ∨ pos = 1) := by omega
          rw [if_neg other, from_]
          cases at_ : (m :: ms)[(pos - 1).toNat]? with
          | some x =>
              simp only [Nodes.put]
              rw [if_neg (by omega)]
          | none =>
              have turned : Nodes.negate pos < 1 := by
                simp only [Nodes.negate]
                omega
              simp [turned, Nodes.put]
      · simp only [Nodes.insertAt, if_neg after, last, spot]
        by_cases zero : pos = 0
        · have at_ : (m :: ms).reverse[0]? = some l := by
            rw [← List.head?_eq_getElem?, List.head?_reverse, end_]
          subst zero
          simp only [Int.neg_zero, Int.toNat_zero, at_, Nodes.put]
          simp
        · have before : pos < 0 := by omega
          have other : ¬ (pos = 0 ∨ pos = 1) := by omega
          rw [if_neg other, back before, ← eq]
          cases at_ : (m :: ms).reverse[(-pos).toNat]? with
          | some x =>
              simp only [Nodes.put]
              rw [if_pos (by omega)]
          | none =>
              have short := List.getElem?_eq_none_iff.mp at_
              have turned : ¬ Nodes.negate pos < 1 := by
                rw [List.length_reverse] at short
                rcases Decidable.em (pos = -2 ^ 31) with least | other
                · rcases counts least with empty | long
                  · cases empty
                  · omega
                · simp only [Nodes.negate]
                  omega
              simp [before, one, turned, Nodes.put]

/-- The least `int` is negated to itself, and the node is put behind the first one. -/
theorem insertAt_wraps (chain : Chain h up none (first :: rest)) (enough : rest.length < h.size)
    {m : Nat} {ms : List Nat} (matches_ : (first :: rest).filter same = m :: ms)
    (short : (m :: ms).length ≤ 2 ^ 31) {pos : Int} (least : pos = -2 ^ 31) (n : Nat) :
    h.insertAt (h.nodeLocateAt same) first pos n = h.gnodeAfter m n := by
  have last : h.nodeLocateAt same first 0 = _ := nodeLocateAt_last chain enough
  have one : h.nodeLocateAt same first 1 = some m := by
    rw [nodeLocateAt_pos chain enough (by decide), matches_]
    rfl
  have before : pos < 0 := by omega
  have zero : ¬ 0 < pos := by omega
  have other : ¬ (pos = 0 ∨ pos = 1) := by omega
  obtain ⟨front, l, eq⟩ := List.eq_nil_or_concat (m :: ms) |>.resolve_left (List.cons_ne_nil _ _)
  rw [List.concat_eq_append] at eq
  have back := nodeLocateAt_back chain enough (matches_.trans eq) before
  have none : (m :: ms).reverse[(-pos).toNat]? = none := by
    rw [List.getElem?_eq_none_iff, List.length_reverse]
    omega
  have end_ : (m :: ms).getLast? = some l := by rw [eq]; simp
  have turned : Nodes.negate pos < 1 := by
    rw [Nodes.negate, if_pos least]
    omega
  rw [matches_, end_] at last
  rw [← eq, none] at back
  simp only [Nodes.insertAt, if_neg zero, last, if_neg other, back, if_pos before, one]
  simp [turned]

end Search

end Mpt.Tree
