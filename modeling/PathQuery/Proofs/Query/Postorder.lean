import PathQuery.Proofs.Query.Assembly
import PathQuery.Proofs.Query.Precedence
import PathQuery.Query.Evaluation

namespace PathQuery

variable {env : Env}

namespace Program

theorem height?_append (n : Nat) (p q : Program) : height? n (p ++ q) = (height? n p).bind fun m => height? m q := by
  induction p generalizing n with
  | nil => rfl
  | cons i p ih =>
    rw [List.cons_append, height?, height?]
    split
    · exact ih _
    · rfl

theorem ofItems_map {p : Program} (h : height? 0 p = some 1) : ofItems (p.map .instr) = .ok p := by
  have hm : ∀ q : Program, (q.map Item.instr).mapM Item.instr? = some q := by
    intro q
    induction q with
    | nil => rfl
    | cons i q ih => simp [Item.instr?, ih]
  rw [ofItems, hm]
  exact if_pos h

end Program

namespace Syntax

/-- An operand of an expression: a literal, or a path from the root or from the current node. -/
inductive Atom
  | literal (v : Value)
  | root (steps : List Selector)
  | current (steps : List Selector)

def Atom.program : Atom → Program
  | literal v => [.literal v]
  | root steps => [.root, .path steps]
  | current steps => [.current, .path steps]

def PrefixOp.operator (op : PrefixOp) : Operator := .unary op.op

def PatternText.operator (r : PatternText env) : Operator := .unary (.likes r.pattern)

namespace Tree

/-- The operands and operators of a tree, each operator behind its operands. -/
def post : Tree env Atom → Program
  | operand a => a.program
  | group t => t.post
  | prefixed op t => t.post ++ [op.operator.instr]
  | likes r t => t.post ++ [r.operator.instr]
  | binary op l r => l.post ++ r.post ++ [.binary op]

/-- The operators that still wait when a tree has been read, innermost first. -/
def held : Tree env Atom → List Operator
  | operand _ => []
  | group _ => []
  | prefixed op t => t.held ++ [op.operator]
  | likes r _ => [r.operator]
  | binary op _ r => r.held ++ [.binary op]

/-- What is complete when a tree has been read. -/
def out : Tree env Atom → Program
  | operand a => a.program
  | group t => t.post
  | prefixed _ t => t.out
  | likes _ t => t.post
  | binary _ l r => l.post ++ r.out

variable {t : Tree env Atom}

theorem out_append_held (t : Tree env Atom) : t.out ++ t.held.map Operator.instr = t.post := by
  induction t with
  | operand a => simp [out, held, post]
  | group t _ => simp [out, held, post]
  | prefixed op t ih => simp [out, held, post, ← ih]
  | likes r t _ => simp [out, held, post]
  | binary op l r _ ih => simp [out, held, post, ← ih, Operator.instr]

/-- A program of a tree puts one value on a stack. -/
theorem height?_post (t : Tree env Atom) (n : Nat) : Program.height? n t.post = some (n + 1) := by
  induction t generalizing n with
  | operand a => cases a <;> simp [post, Atom.program, Program.height?, Instr.operands]
  | group t ih => exact ih n
  | prefixed op t ih =>
    simp [post, Program.height?_append, ih, Program.height?, PrefixOp.operator, Operator.instr, Instr.operands]
  | likes r t ih =>
    simp [post, Program.height?_append, ih, Program.height?, PatternText.operator, Operator.instr, Instr.operands]
  | binary op l r ihl ihr =>
    have ho : (Instr.binary op).operands = 2 := rfl
    simp [post, Program.height?_append, ihl, ihr, Program.height?, ho]

/-- The assembly behind a tree that has been read. -/
def assembled (t : Tree env Atom) (a : Assembly) : Assembly :=
  ⟨(t.out.map .instr).reverse ++ a.items, t.held.map .operator ++ a.pending⟩

/-- The assembly behind a tree the operators of which have been settled. -/
def settled (t : Tree env Atom) (a : Assembly) : Assembly := ⟨(t.post.map .instr).reverse ++ a.items, a.pending⟩

end Tree

/-- No operator waits on top. -/
def Firm (pending : List Pending) : Prop := ∀ op rest, pending ≠ .operator op :: rest

theorem firm_nil : Firm [] := fun _ _ h => nomatch h

theorem firm_group (pending : List Pending) : Firm (.group :: pending) := fun _ _ h => nomatch h

theorem firm_scope (pending : List Pending) : Firm (.scope :: pending) := fun _ _ h => nomatch h

/-- An operator moves nothing of what waits. -/
def Rests (op : Operator) (pending : List Pending) : Prop :=
  ∀ items, Assembly.settle op items pending = ⟨items, pending⟩

variable {op : Operator} {pending : List Pending}

theorem Firm.rests (h : Firm pending) (op : Operator) : Rests op pending := by
  intro items
  rw [Assembly.settle]
  exact h

theorem rests_of_precedes {top : Operator} (h : top.precedes op = false) (pending : List Pending) :
    Rests op (.operator top :: pending) := by
  intro items
  rw [Assembly.settle, h]
  rfl

theorem rests_prefixOp (op : PrefixOp) (pending : List Pending) : Rests op.operator pending := by
  cases pending with
  | nil => exact firm_nil.rests _
  | cons p pending =>
    cases p with
    | operator top =>
      have h : top.precedes op.operator = false := by
        cases op <;> cases top with
        | unary u => cases u <;> rfl
        | binary b => cases b <;> rfl
      exact rests_of_precedes h pending
    | group => exact (firm_group _).rests _
    | scope => exact (firm_scope _).rests _

theorem looseness_binary (op : BinaryOp) : (Operator.binary op).looseness = binaryLevel op := by
  cases op <;> rfl

theorem looseness_prefixOp (op : PrefixOp) : op.operator.looseness = 1 := by
  cases op <;> rfl

/-- Before an operator that is not a prefix those go that bind no looser. -/
theorem precedes_eq {next : Operator} (h : next.isPrefixed = false) (op : Operator) :
    op.precedes next = decide (op.looseness ≤ next.looseness) := by
  rw [Operator.precedes, h]
  rcases Nat.lt_trichotomy op.looseness next.looseness with hl | hl | hl
  · simp [hl, Nat.le_of_lt hl]
  · simp [hl]
  · simp [Nat.not_le.2 hl, Nat.lt_asymm hl, Nat.ne_of_gt hl]

theorem settle_of_precedes {ops : List Operator} (h : ∀ top ∈ ops, top.precedes op = true) (hr : Rests op pending)
    (items : List Item) :
    Assembly.settle op items (ops.map .operator ++ pending) = ⟨Assembly.settledItems ops ++ items, pending⟩ := by
  induction ops generalizing items with
  | nil => exact hr items
  | cons top ops ih =>
    rw [List.map_cons, List.cons_append, Assembly.settle, if_pos (h top (by simp)),
      ih fun other ho => h other (List.mem_cons_of_mem _ ho)]
    simp

/-- The operators that wait bind no looser than the tree. -/
theorem Tree.Conforms.held_looseness {t : Tree env Atom} (ht : t.Conforms) :
    ∀ top ∈ t.held, top.looseness ≤ t.level := by
  induction ht with
  | operand _ => nofun
  | group _ => nofun
  | @prefixed op t _ hl ih =>
    intro top hm
    rcases List.mem_append.1 hm with hm | hm
    · exact Nat.le_trans (ih top hm) hl
    · obtain rfl : top = op.operator := by simpa using hm
      exact Nat.le_of_eq (looseness_prefixOp op)
  | @likes r t _ _ _ =>
    intro top hm
    obtain rfl : top = r.operator := by simpa [held] using hm
    exact Nat.le_refl 2
  | @binary op l r _ _ _ hlr _ ih =>
    intro top hm
    rcases List.mem_append.1 hm with hm | hm
    · exact Nat.le_of_lt (Nat.lt_of_le_of_lt (ih top hm) hlr)
    · obtain rfl : top = .binary op := by simpa using hm
      exact Nat.le_of_eq (looseness_binary op)

theorem Tree.settledItems_out (t : Tree env Atom) (items : List Item) :
    Assembly.settledItems t.held ++ ((t.out.map .instr).reverse ++ items) = (t.post.map .instr).reverse ++ items := by
  rw [← t.out_append_held]
  simp [Assembly.settledItems]

/-- An operator behind a tree that binds no looser settles the tree. -/
theorem pushOperator_of_level_le {t : Tree env Atom} (ht : t.Conforms) (hp : op.isPrefixed = false)
    (hl : t.level ≤ op.looseness) {a : Assembly} (ha : Rests op a.pending) :
    (t.assembled a).pushOperator op = ⟨(t.settled a).items, .operator op :: a.pending⟩ := by
  have hprecedes : ∀ top ∈ t.held, top.precedes op = true := by
    intro top hm
    rw [precedes_eq hp, decide_eq_true_eq]
    exact Nat.le_trans (ht.held_looseness top hm) hl
  rw [Assembly.pushOperator, Tree.assembled, settle_of_precedes hprecedes ha, t.settledItems_out]
  rfl

/-- An operator behind a tree takes the part of the tree that `insert` gives it. What becomes of this part, `f`, shows
in what `k` makes of the assembly that holds the operator and the settled part. -/
theorem pushOperator_insert {t : Tree env Atom} (ht : t.Conforms) (hp : op.isPrefixed = false) (ho : 2 ≤ op.looseness)
    {f : Tree env Atom → Tree env Atom} {k : Assembly → Assembly}
    (hk : ∀ (u : Tree env Atom) a, (f u).assembled a = k ⟨(u.settled a).items, .operator op :: a.pending⟩)
    {a : Assembly} (ha : Rests op a.pending) :
    (t.insert op.looseness f).assembled a = k ((t.assembled a).pushOperator op) := by
  have hroot : ∀ u : Tree env Atom, u.Conforms → u.level ≤ op.looseness → ∀ {a : Assembly}, Rests op a.pending →
      (u.insert op.looseness f).assembled a = k ((u.assembled a).pushOperator op) := by
    intro u hu hl a ha
    rw [Tree.insert_of_level_le hl, hk, pushOperator_of_level_le hu hp hl ha]
  induction ht generalizing a with
  | operand b => exact hroot _ (.operand b) (Nat.zero_le _) ha
  | group h _ => exact hroot _ (.group h) (Nat.zero_le _) ha
  | prefixed h hl _ => exact hroot _ (.prefixed h hl) (Nat.le_of_succ_le ho) ha
  | likes h hl _ => exact hroot _ (.likes h hl) ho ha
  | @binary top l r hl hr hll hlr _ ih =>
    by_cases h : binaryLevel top ≤ op.looseness
    · exact hroot _ (.binary hl hr hll hlr) h ha
    · -- the operator at the root stays, and goes on waiting below those of the right operand
      have hrests : Rests op (.operator (.binary top) :: a.pending) := by
        refine rests_of_precedes ?_ _
        rw [precedes_eq hp, looseness_binary, decide_eq_false h]
      have hassembled : ∀ u : Tree env Atom, (Tree.binary top l u).assembled a =
          u.assembled ⟨(l.settled a).items, .operator (.binary top) :: a.pending⟩ := by
        intro u
        simp [Tree.assembled, Tree.settled, Tree.out, Tree.held]
      rw [Tree.insert_binary_of_lt (Nat.not_le.1 h), hassembled, ih hrests, hassembled]

/-- An assembly in which the context of a phrase has been read: an operand that is read there is put in the context. -/
def Prepared (f : Tree env Atom → Tree env Atom) (a b : Assembly) : Prop :=
  ∀ t : Tree env Atom, (f t).assembled a = t.assembled b

variable {f : Tree env Atom → Tree env Atom} {a b : Assembly}

theorem prepared_id (a : Assembly) : Prepared (id : Tree env Atom → Tree env Atom) a a := fun _ => rfl

theorem Prepared.prefixed (h : Prepared f a b) (op : PrefixOp) :
    Prepared (fun t => f (.prefixed op t)) a (b.pushOperator op.operator) := by
  intro t
  rw [h, Assembly.pushOperator, rests_prefixOp op b.pending b.items]
  simp [Tree.assembled, Tree.out, Tree.held]

theorem prepared_binary {t : Tree env Atom} (ht : t.Conforms) (ha : Firm a.pending) (op : BinaryOp) :
    Prepared (fun u => t.insert (binaryLevel op) (.binary op · u)) a ((t.assembled a).pushOperator (.binary op)) := by
  intro u
  have ho := two_lt_binaryLevel op
  rw [← looseness_binary] at ho ⊢
  refine pushOperator_insert ht rfl (Nat.le_of_lt ho) ?_ (ha.rests _)
  intro l c
  simp [Tree.assembled, Tree.settled, Tree.out, Tree.held]

theorem likes_assembled {t : Tree env Atom} (ht : t.Conforms) (ha : Firm a.pending) (r : PatternText env) :
    (t.insert 2 (.likes r)).assembled a = (t.assembled a).pushOperator r.operator :=
  @pushOperator_insert env r.operator t ht rfl (Nat.le_refl 2) (.likes r) id (fun _ _ => rfl) a (ha.rests _)

/-- When nothing more follows, the whole tree is settled. -/
theorem settled_assembled (t : Tree env Atom) (ha : Firm a.pending) : (t.assembled a).settled = t.settled a := by
  have hall : ∀ (ops : List Operator) items, Assembly.settleAll items (ops.map .operator ++ a.pending) =
      ⟨Assembly.settledItems ops ++ items, a.pending⟩ := by
    intro ops
    induction ops with
    | nil =>
      intro items
      rw [List.map_nil, List.nil_append, Assembly.settleAll]
      · rfl
      · exact ha
    | cons op ops ih =>
      intro items
      rw [List.map_cons, List.cons_append, Assembly.settleAll, ih]
      simp
  rw [Assembly.settled, Tree.assembled, hall, t.settledItems_out]
  rfl

/-- What an operand gives at a current node. -/
def Atom.evaluate (t : Strategy) (s : Setting) (n : Node) : Atom → Eval Operand
  | literal v => return .node ⟨n.location, v, false⟩
  | root steps => return .found (← select t s steps (.root s.doc))
  | current steps => return .found (← select t s steps n)

/-- What a tree gives at a current node: an operator evaluates each of its operands once, the left before the right, and
takes them as one node each. -/
def Tree.evaluate (t : Strategy) (s : Setting) (n : Node) : Tree env Atom → Eval Operand
  | operand a => a.evaluate t s n
  | group u => u.evaluate t s n
  | prefixed op u => do
    let v ← u.evaluate t s n
    return .node (n.compute (op.op.apply (v.toNode n.location).value))
  | likes r u => do
    let v ← u.evaluate t s n
    return .node (n.compute (UnaryOp.apply (v.toNode n.location).value (.likes r.pattern)))
  | binary op l r => do
    let left ← l.evaluate t s n
    let right ← r.evaluate t s n
    return .node (op.applyNode n (left.toNode n.location) (right.toNode n.location))

variable (t : Strategy) (s : Setting) (n : Node)

theorem run_append (p q : Program) (stack : List Operand) :
    run t s (p ++ q) n stack = run t s p n stack >>= run t s q n := by
  induction p generalizing stack with
  | nil => simp [run]
  | cons i p ih => simp [run, ih]

theorem execute_root (stack : List Operand) :
    execute t s .root n stack = return .node (.root s.doc) :: stack := by
  rw [execute]

theorem execute_current (stack : List Operand) : execute t s .current n stack = return .node n :: stack := by
  rw [execute]

theorem execute_literal (v : Value) (stack : List Operand) :
    execute t s (.literal v) n stack = return .node ⟨n.location, v, false⟩ :: stack := by
  rw [execute]

theorem execute_path (steps : List Selector) (top : Operand) (stack : List Operand) :
    execute t s (.path steps) n (top :: stack) =
      do return .found (← select t s steps (top.toNode n.location)) :: stack := by
  rw [execute]

theorem execute_unary (op : UnaryOp) (top : Operand) (stack : List Operand) :
    execute t s (.unary op) n (top :: stack) =
      return .node (n.compute (op.apply (top.toNode n.location).value)) :: stack := by
  rw [execute]

theorem execute_binary (op : BinaryOp) (right left : Operand) (stack : List Operand) :
    execute t s (.binary op) n (right :: left :: stack) =
      return .node (op.applyNode n (left.toNode n.location) (right.toNode n.location)) :: stack := by
  rw [execute]

theorem Atom.run_program (a : Atom) (stack : List Operand) :
    run t s a.program n stack = do return (← a.evaluate t s n) :: stack := by
  cases a with
  | literal v => simp [program, evaluate, run, execute_literal]
  | root steps => simp [program, evaluate, run, execute_root, execute_path, Operand.toNode]
  | current steps => simp [program, evaluate, run, execute_current, execute_path, Operand.toNode]

/-- The program of a tree puts on a stack what the tree gives. -/
theorem Tree.run_post (u : Tree env Atom) (stack : List Operand) :
    run t s u.post n stack = do return (← u.evaluate t s n) :: stack := by
  induction u generalizing stack with
  | operand a => exact a.run_program t s n stack
  | group u ih => exact ih stack
  | prefixed op u ih =>
    rw [post, run_append, ih]
    simp [evaluate, run, execute_unary, PrefixOp.operator, Operator.instr]
  | likes r u ih =>
    rw [post, run_append, ih]
    simp [evaluate, run, execute_unary, PatternText.operator, Operator.instr]
  | binary op l r ihl ihr =>
    rw [post, run_append, run_append, ihl]
    simp [evaluate, run, execute_binary, ihr]

theorem Tree.evaluate_post (u : Tree env Atom) :
    PathQuery.evaluate t s u.post n = do return (← u.evaluate t s n).toMatches := by
  rw [PathQuery.evaluate, u.run_post]
  simp [Operand.result]

/-- Evaluates the operands of a tree. -/
def Tree.evaluateOperands {α : Type} (f : α → Eval Operand) : Tree env α → Eval (Tree env Operand)
  | operand a => return .operand (← f a)
  | group u => return .group (← u.evaluateOperands f)
  | prefixed op u => return .prefixed op (← u.evaluateOperands f)
  | likes r u => return .likes r (← u.evaluateOperands f)
  | binary op l r => return .binary op (← l.evaluateOperands f) (← r.evaluateOperands f)

/-- What the operators of a tree make of the values of its operands. -/
def Tree.apply (n : Node) : Tree env Operand → Operand
  | operand v => v
  | group u => u.apply n
  | prefixed op u => .node (n.compute (op.op.apply ((u.apply n).toNode n.location).value))
  | likes r u => .node (n.compute (UnaryOp.apply ((u.apply n).toNode n.location).value (.likes r.pattern)))
  | binary op l r => .node (op.applyNode n ((l.apply n).toNode n.location) ((r.apply n).toNode n.location))

/-- No operator decides whether or when an operand is evaluated. -/
theorem Tree.evaluate_eq (u : Tree env Atom) :
    u.evaluate t s n = do return (← u.evaluateOperands (·.evaluate t s n)).apply n := by
  induction u with
  | operand a => simp [evaluate, evaluateOperands, apply]
  | group u ih => simp [evaluate, evaluateOperands, apply, ih]
  | prefixed op u ih => simp [evaluate, evaluateOperands, apply, ih]
  | likes r u ih => simp [evaluate, evaluateOperands, apply, ih]
  | binary op l r ihl ihr => simp [evaluate, evaluateOperands, apply, ihl, ihr]

/-- Each operand is evaluated once, from the left to the right. -/
theorem Tree.operands_evaluateOperands {α : Type} (f : α → Eval Operand) (u : Tree env α) :
    (do return (← u.evaluateOperands f).operands) = u.operands.mapM f := by
  induction u with
  | operand a => simp [evaluateOperands, operands]
  | group u ih => simp [evaluateOperands, operands, ← ih]
  | prefixed op u ih => simp [evaluateOperands, operands, ← ih]
  | likes r u ih => simp [evaluateOperands, operands, ← ih]
  | binary op l r ihl ihr => simp [evaluateOperands, operands, ← ihl, ← ihr]

end Syntax

end PathQuery
