import PathQuery.Proofs.Query.Lexical

namespace PathQuery.Syntax

mutual

/-- An expression as it is written, from a place where an operand comes next. -/
inductive Phrase (env : Env) (α : Type)
  | prefixed (op : PrefixOp) (rest : Phrase env α)
  | operand (a : α) (tail : Tail env α)
  | group (inner : Phrase env α) (tail : Tail env α)

/-- What is written behind an operand. -/
inductive Tail (env : Env) (α : Type)
  | done
  | likes (r : PatternText env) (rest : Tail env α)
  | binary (op : BinaryOp) (rest : Phrase env α)

end

inductive Tree (env : Env) (α : Type)
  | operand (a : α)
  | group (t : Tree env α)
  | prefixed (op : PrefixOp) (t : Tree env α)
  | likes (r : PatternText env) (t : Tree env α)
  | binary (op : BinaryOp) (l r : Tree env α)

variable {env : Env}

/-- How loosely a binary operator binds. Prefix operators have level 1, matches with regular expressions level 2. -/
def binaryLevel : BinaryOp → Nat
  | .mul | .div => 3
  | .add | .sub => 4
  | .lt | .le | .gt | .ge => 5
  | .eq | .ne => 6
  | .and => 7
  | .or => 8

namespace Tree

variable {α : Type}

/-- How loosely the operator at the root binds. Operands and groups are at level 0. -/
def level : Tree env α → Nat
  | operand _ => 0
  | group _ => 0
  | prefixed _ _ => 1
  | likes _ _ => 2
  | binary op _ _ => binaryLevel op

/-- Every operator takes an operand on its left that binds no looser and one on its right that binds tighter; a prefix
operator takes one that is written with prefix operators alone. -/
inductive Conforms : Tree env α → Prop
  | operand (a : α) : Conforms (operand a)
  | group {t : Tree env α} (h : Conforms t) : Conforms (group t)
  | prefixed {op : PrefixOp} {t : Tree env α} (h : Conforms t) (hl : t.level ≤ 1) : Conforms (prefixed op t)
  | likes {r : PatternText env} {t : Tree env α} (h : Conforms t) (hl : t.level ≤ 2) : Conforms (likes r t)
  | binary {op : BinaryOp} {l r : Tree env α} (hl : Conforms l) (hr : Conforms r) (hll : l.level ≤ binaryLevel op)
      (hlr : r.level < binaryLevel op) : Conforms (binary op l r)

/-- Writes a tree before a tail. -/
def write : Tree env α → Tail env α → Phrase env α
  | operand a, tail => .operand a tail
  | group t, tail => .group (t.write .done) tail
  | prefixed op t, tail => .prefixed op (t.write tail)
  | likes r t, tail => t.write (.likes r tail)
  | binary op l r, tail => l.write (.binary op (r.write tail))

/-- A tree as it is written. -/
def phrase (t : Tree env α) : Phrase env α := t.write .done

/-- Puts an operator of a level behind a tree. It takes the largest part of the tree that ends there and binds no
looser; `f` is what becomes of this part. -/
def insert (n : Nat) (f : Tree env α → Tree env α) : Tree env α → Tree env α
  | binary op l r => if binaryLevel op ≤ n then f (binary op l r) else binary op l (r.insert n f)
  | t => f t

end Tree

mutual

/-- The tree of a phrase in a context, which takes the operand that comes next. -/
def Phrase.under {α : Type} (f : Tree env α → Tree env α) : Phrase env α → Tree env α
  | .prefixed op rest => rest.under fun t => f (.prefixed op t)
  | .operand a tail => tail.extend (f (.operand a))
  | .group inner tail => tail.extend (f (.group (inner.under id)))

/-- The tree of a tail behind a tree. -/
def Tail.extend {α : Type} (t : Tree env α) : Tail env α → Tree env α
  | .done => t
  | .likes r rest => rest.extend (t.insert 2 (.likes r))
  | .binary op rest => rest.under fun u => t.insert (binaryLevel op) (.binary op · u)

end

/-- The tree of a phrase. -/
def Phrase.tree {α : Type} (p : Phrase env α) : Tree env α := p.under id

variable {α : Type}

theorem two_lt_binaryLevel (op : BinaryOp) : 2 < binaryLevel op := by
  cases op <;> decide

namespace Tree

theorem insert_of_level_le {n : Nat} {t : Tree env α} (h : t.level ≤ n) (f : Tree env α → Tree env α) :
    t.insert n f = f t := by
  cases t with
  | binary op l r => exact if_pos h
  | _ => rfl

theorem insert_binary_of_lt {n : Nat} {op : BinaryOp} (h : n < binaryLevel op) (l r : Tree env α)
    (f : Tree env α → Tree env α) : (binary op l r).insert n f = binary op l (r.insert n f) :=
  if_neg (Nat.not_le.2 h)

/-- The tree conforms if what becomes of a part that ends with it does, and is of the level of the operator. -/
theorem insert_conforms {n : Nat} {f : Tree env α → Tree env α} {t : Tree env α} (ht : t.Conforms) (hn : 2 ≤ n)
    (hf : ∀ u : Tree env α, u.Conforms → u.level ≤ n → (f u).Conforms ∧ (f u).level = n) :
    (t.insert n f).Conforms ∧ (t.insert n f).level ≤ max t.level n := by
  have hroot : ∀ u : Tree env α, u.Conforms → u.level ≤ n →
      (u.insert n f).Conforms ∧ (u.insert n f).level ≤ max u.level n := by
    intro u hu hl
    rw [insert_of_level_le hl]
    exact ⟨(hf u hu hl).1, (hf u hu hl).2 ▸ Nat.le_max_right _ _⟩
  induction ht with
  | operand a => exact hroot _ (.operand a) (Nat.zero_le _)
  | group h _ => exact hroot _ (.group h) (Nat.zero_le _)
  | prefixed h hl _ => exact hroot _ (.prefixed h hl) (Nat.le_of_succ_le hn)
  | likes h hl _ => exact hroot _ (.likes h hl) hn
  | @binary op l r hl hr hll hlr _ ih =>
    by_cases h : binaryLevel op ≤ n
    · exact hroot _ (.binary hl hr hll hlr) h
    · rw [insert_binary_of_lt (Nat.not_le.1 h)]
      refine ⟨.binary hl ih.1 hll ?_, Nat.le_max_left _ _⟩
      have := ih.2
      omega

/-- Writing commutes with putting an operator behind a tree. -/
theorem write_insert {n : Nat} {f : Tree env α → Tree env α} {g : Tail env α → Tail env α}
    (hf : ∀ u tail, (f u).write tail = u.write (g tail)) (t : Tree env α) (tail : Tail env α) :
    (t.insert n f).write tail = t.write (g tail) := by
  induction t generalizing tail with
  | binary op l r _ ihr =>
    rw [insert]
    split
    · exact hf _ tail
    · rw [write, ihr, write]
  | _ => exact hf _ tail

end Tree

/-- A context in which a term can be put: a tree that only prefix operators stand in front of. -/
def Accepts (f : Tree env α → Tree env α) : Prop := ∀ t : Tree env α, t.Conforms → t.level ≤ 1 → (f t).Conforms

theorem accepts_id : Accepts (id : Tree env α → Tree env α) := fun _ h _ => h

theorem Accepts.prefixed {f : Tree env α → Tree env α} (hf : Accepts f) (op : PrefixOp) :
    Accepts fun t => f (.prefixed op t) := by
  intro t ht hl
  exact hf _ (.prefixed ht hl) (Nat.le_refl 1)

theorem accepts_binary {t : Tree env α} (ht : t.Conforms) (op : BinaryOp) :
    Accepts fun u => t.insert (binaryLevel op) (.binary op · u) := by
  intro u hu hl
  have ho := two_lt_binaryLevel op
  refine (Tree.insert_conforms ht (by omega) ?_).1
  intro v hv hvl
  exact ⟨.binary hv hu hvl (by omega), rfl⟩

theorem likes_conforms {t : Tree env α} (ht : t.Conforms) (r : PatternText env) : (t.insert 2 (.likes r)).Conforms :=
  (Tree.insert_conforms ht (Nat.le_refl 2) fun _ hu hl => ⟨.likes hu hl, rfl⟩).1

mutual

theorem Phrase.under_conforms : ∀ (p : Phrase env α) {f : Tree env α → Tree env α}, Accepts f → (p.under f).Conforms
  | .prefixed op rest, _, hf => by
    rw [Phrase.under]
    exact rest.under_conforms (hf.prefixed op)
  | .operand a tail, _, hf => by
    rw [Phrase.under]
    exact tail.extend_conforms (hf _ (.operand a) (Nat.zero_le _))
  | .group inner tail, _, hf => by
    rw [Phrase.under]
    exact tail.extend_conforms (hf _ (.group (inner.under_conforms accepts_id)) (Nat.zero_le _))

theorem Tail.extend_conforms : ∀ (tail : Tail env α) {t : Tree env α}, t.Conforms → (tail.extend t).Conforms
  | .done, _, ht => ht
  | .likes r rest, _, ht => by
    rw [Tail.extend]
    exact rest.extend_conforms (likes_conforms ht r)
  | .binary op rest, _, ht => by
    rw [Tail.extend]
    exact rest.under_conforms (accepts_binary ht op)

end

mutual

/-- A phrase is what its tree is written as, if the context is written before it. -/
theorem Phrase.phrase_under : ∀ (p : Phrase env α) {f : Tree env α → Tree env α} {g : Phrase env α → Phrase env α},
    (∀ t tail, (f t).write tail = g (t.write tail)) → (p.under f).phrase = g p
  | .prefixed op rest, _, g, hg => by
    rw [Phrase.under]
    refine rest.phrase_under (g := fun p => g (.prefixed op p)) ?_
    intro t tail
    exact hg _ tail
  | .operand a tail, _, _, hg => by
    rw [Phrase.under, tail.phrase_extend]
    exact hg _ tail
  | .group inner tail, _, _, hg => by
    have hi : (inner.under id).write .done = inner := inner.phrase_under (g := id) fun _ _ => rfl
    rw [Phrase.under, tail.phrase_extend, hg, Tree.write, hi]

theorem Tail.phrase_extend : ∀ (tail : Tail env α) (t : Tree env α), (tail.extend t).phrase = t.write tail
  | .done, _ => rfl
  | .likes r rest, t => by
    rw [Tail.extend, rest.phrase_extend]
    exact Tree.write_insert (g := .likes r) (fun _ _ => rfl) t rest
  | .binary op rest, t => by
    rw [Tail.extend]
    refine rest.phrase_under (g := fun p => t.write (.binary op p)) ?_
    intro u tail
    exact Tree.write_insert (g := fun tail => .binary op (u.write tail)) (fun _ _ => rfl) t tail

end

/-- Operators up to a level that are put behind a tree in a context take their part from this tree. -/
def Passes (f : Tree env α → Tree env α) (n : Nat) : Prop :=
  ∀ k, 2 ≤ k → k ≤ n → ∀ (g : Tree env α → Tree env α) t, (f t).insert k g = f (t.insert k g)

theorem Passes.mono {f : Tree env α → Tree env α} {m n : Nat} (h : Passes f n) (hmn : m ≤ n) : Passes f m :=
  fun k hk hm => h k hk (Nat.le_trans hm hmn)

/-- Reading what a conforming tree is written as gives this tree. -/
theorem Tree.Conforms.under_write {t : Tree env α} (ht : t.Conforms) {f : Tree env α → Tree env α}
    (hf : Passes f t.level) (tail : Tail env α) : (t.write tail).under f = tail.extend (f t) := by
  induction ht generalizing f tail with
  | operand a => rfl
  | group _ ih =>
    rw [Tree.write, Phrase.under, ih (f := id) fun _ _ _ _ _ => rfl]
    rfl
  | prefixed _ hl ih =>
    rw [Tree.write, Phrase.under]
    -- only prefix operators stand in front of the operand, and none of them is put behind a tree
    exact ih (fun k hk hkl => by omega) tail
  | likes _ hl ih =>
    rw [Tree.write, ih (hf.mono hl), Tail.extend, hf 2 (Nat.le_refl 2) (Nat.le_refl 2), Tree.insert_of_level_le hl]
  | @binary op l r _ _ hll hlr ihl ihr =>
    have ho := two_lt_binaryLevel op
    have hcontext : (fun u => (f l).insert (binaryLevel op) (Tree.binary op · u)) = fun u => f (.binary op l u) := by
      funext u
      rw [hf _ (Nat.le_of_lt ho) (Nat.le_refl _), Tree.insert_of_level_le hll]
    rw [Tree.write, ihl (hf.mono hll), Tail.extend, hcontext]
    refine ihr ?_ tail
    intro k hk hkr g u
    have hko : k < binaryLevel op := Nat.lt_of_le_of_lt hkr hlr
    rw [hf k hk (Nat.le_of_lt hko), Tree.insert_binary_of_lt hko]

namespace Phrase

/-- The tree of a phrase conforms and is written as the phrase. -/
theorem tree_spec (p : Phrase env α) : p.tree.Conforms ∧ p.tree.phrase = p :=
  ⟨p.under_conforms accepts_id, p.phrase_under (g := id) fun _ _ => rfl⟩

/-- No other conforming tree is written as the phrase. -/
theorem eq_tree {p : Phrase env α} {t : Tree env α} (ht : t.Conforms) (hp : t.phrase = p) : t = p.tree := by
  subst hp
  exact (ht.under_write (f := id) (fun _ _ _ _ _ => rfl) .done).symm

end Phrase

section operands

mutual

/-- The operands of an expression, in the order in which they are written. -/
def Phrase.operands : Phrase env α → List α
  | .prefixed _ rest => rest.operands
  | .operand a tail => a :: tail.operands
  | .group inner tail => inner.operands ++ tail.operands

def Tail.operands : Tail env α → List α
  | .done => []
  | .likes _ rest => rest.operands
  | .binary _ rest => rest.operands

end

/-- The operands of a tree, from the left to the right. -/
def Tree.operands : Tree env α → List α
  | operand a => [a]
  | group t => t.operands
  | prefixed _ t => t.operands
  | likes _ t => t.operands
  | binary _ l r => l.operands ++ r.operands

theorem Tree.operands_write (t : Tree env α) (tail : Tail env α) :
    (t.write tail).operands = t.operands ++ tail.operands := by
  induction t generalizing tail with
  | operand a => rfl
  | group t ih => simp [write, Phrase.operands, operands, ih, Tail.operands]
  | prefixed op t ih => exact ih tail
  | likes r t ih => exact ih _
  | binary op l r ihl ihr => simp [write, ihl, ihr, operands, Tail.operands]

/-- The tree of an expression has its operands in the order of the text. -/
theorem Phrase.operands_tree (p : Phrase env α) : p.tree.operands = p.operands := by
  have hw := p.tree.operands_write .done
  rw [Tail.operands, List.append_nil] at hw
  rw [← hw, ← Tree.phrase, p.tree_spec.2]

end operands

end PathQuery.Syntax
