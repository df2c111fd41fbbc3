import CustomIsa.Proofs.Canon.Native
import CustomIsa.Proofs.Expr.Render
import CustomIsa.Template.Compile
/-! # Templates written out

A template without guards and literals whose operators are those of expressions can be written out
as an expression, with a variable for every name (`Sexp.written?`). `Sexp.Writes` says the same of
expressions with any tags, operator by operator; additions of many operands are built up from the
left. What is written out is native (`Sexp.Writes.native`), has the variables of the names in their
order (`Sexp.Writes.names_eq`) and can be read back from its text (`Expr.Native.readable`). -/
namespace CustomIsa
namespace Sexp

mutual

/-- The names in an S-expression other than operators, in order. -/
def atoms : Sexp → List String
  | .atom name _ => [name]
  | .app _ _ args => atomsOfAll args

/-- The names in a list of S-expressions other than operators, in order. -/
def atomsOfAll : List Sexp → List String
  | [] => []
  | s :: ss => s.atoms ++ atomsOfAll ss

end

/-- The operator of an expression that is written for an operator with two operands. -/
def binary? : String → Option BinaryOp
  | "sub" => some .sub
  | "mul" => some .mul
  | "and" => some .and
  | "or" => some .or
  | "xor" => some .xor
  | "shl" => some .shl
  | "shr" => some .shr
  | _ => none

/-- An operator of a template applied to expressions; a sum is added up from the left. -/
def operation? (head : String) (args : List (Expr Unit)) : Option (Expr Unit) :=
  match head, args with
  | "add", a :: more => some (more.foldl (.binary () .add) a)
  | "neg", [a] => some (.unary () .neg a)
  | "not", [a] => some (.unary () .not a)
  | head, [a, b] => (binary? head).map fun op => .binary () op a b
  | _, _ => none

mutual

/-- The template written out as an expression over variables of the given type, `var` naming the
variable of each operand; there is none if the template has guards, literals or other operators. -/
def written? (var : String → String) (ty : IntType) : Sexp → Option (Expr Unit)
  | .atom name [] => if (literal? name).isSome then none else some (.var () (var name) ty)
  | .app head [] args => (writtenAll? var ty args).bind (operation? head)
  | _ => none

/-- Templates written out one by one. -/
def writtenAll? (var : String → String) (ty : IntType) : List Sexp → Option (List (Expr Unit))
  | [] => some []
  | s :: ss => (written? var ty s).bind fun e => (writtenAll? var ty ss).map (e :: ·)

end

variable {α : Type} {var : String → String} {ty : IntType}

mutual

/-- The expression is the template written out. -/
inductive Writes (var : String → String) (ty : IntType) : Sexp → Expr α → Prop where
  | atom {tag name} (hliteral : literal? name = none) :
    Writes var ty (.atom name []) (.var tag (var name) ty)
  | not {tag s a} (ha : Writes var ty s a) : Writes var ty (.app "not" [] [s]) (.unary tag .not a)
  | neg {tag s a} (ha : Writes var ty s a) : Writes var ty (.app "neg" [] [s]) (.unary tag .neg a)
  | sub {tag s t a b} (ha : Writes var ty s a) (hb : Writes var ty t b) :
    Writes var ty (.app "sub" [] [s, t]) (.binary tag .sub a b)
  | dyadic {tag head op op' s t a b} (hhead : Template.Head.ofName? head = some (.dyadic op'))
    (hop : DyadicOp.ofBinary? op = some op') (hplain : op.isComparison = false)
    (ha : Writes var ty s a) (hb : Writes var ty t b) :
    Writes var ty (.app head [] [s, t]) (.binary tag op a b)
  | add {args e} (h : WritesSum var ty args e) : Writes var ty (.app "add" [] args) e

/-- The expression is the sum of the templates written out, added up from the left. -/
inductive WritesSum (var : String → String) (ty : IntType) : List Sexp → Expr α → Prop where
  | first {s a} (ha : Writes var ty s a) : WritesSum var ty [s] a
  | next {tag ss s a b} (ha : WritesSum var ty ss a) (hb : Writes var ty s b) :
    WritesSum var ty (ss ++ [s]) (.binary tag .add a b)

end

theorem WritesSum.foldl {ss args : List Sexp} {a : Expr Unit} {es : List (Expr Unit)}
    (h : WritesSum var ty ss a) (hargs : List.Forall₂ (Writes var ty) args es) :
    WritesSum var ty (ss ++ args) (es.foldl (.binary () .add) a) := by
  induction hargs generalizing ss a with
  | nil => rwa [List.append_nil]
  | @cons s b args _ hb _ ih =>
    rw [← List.singleton_append, ← List.append_assoc, List.foldl_cons]
    exact ih (h.next hb)

/-- Subtraction is gathered into sums, and the other operators stand for themselves. -/
theorem binary?_eq_some {head : String} {op : BinaryOp} (h : binary? head = some op) :
    head = "sub" ∧ op = .sub ∨ ∃ op', Template.Head.ofName? head = some (.dyadic op') ∧
      DyadicOp.ofBinary? op = some op' ∧ op.isComparison = false := by
  unfold binary? at h
  split at h
  · exact .inl ⟨rfl, (Option.some.inj h).symm⟩
  all_goals first | (obtain rfl := Option.some.inj h; exact .inr ⟨_, rfl, rfl, rfl⟩) | cases h

/-- What an operator makes of templates written out is the operation written out. -/
theorem writes_operation {head : String} {args : List Sexp} {es : List (Expr Unit)} {e : Expr Unit}
    (hargs : List.Forall₂ (Writes var ty) args es) (h : operation? head es = some e) :
    Writes var ty (.app head [] args) e := by
  unfold operation? at h
  split at h
  · obtain rfl := Option.some.inj h
    cases hargs with
    | cons ha hmore => exact .add ((WritesSum.first ha).foldl hmore)
  · obtain rfl := Option.some.inj h
    cases hargs with
    | cons ha hnil =>
      cases hnil
      exact .neg ha
  · obtain rfl := Option.some.inj h
    cases hargs with
    | cons ha hnil =>
      cases hnil
      exact .not ha
  · obtain ⟨op, hop, rfl⟩ := Option.map_eq_some_iff.mp h
    cases hargs with
    | cons ha hrest =>
      cases hrest with
      | cons hb hnil =>
        cases hnil
        rcases binary?_eq_some hop with ⟨rfl, rfl⟩ | ⟨op', hhead, hbinary, hplain⟩
        · exact .sub ha hb
        · exact .dyadic hhead hbinary hplain ha hb
  · cases h

mutual

/-- **What is written out keeps to the rules.** -/
theorem writes_of_written : (s : Sexp) → ∀ {e : Expr Unit}, written? var ty s = some e →
    Writes var ty s e
  | .atom name [], e, h => by
    rw [written?] at h
    split at h
    · cases h
    · rename_i hliteral
      obtain rfl := Option.some.inj h
      exact .atom (Option.not_isSome_iff_eq_none.mp hliteral)
  | .app head [] args, e, h => by
    rw [written?] at h
    obtain ⟨es, hes, hoperation⟩ := Option.bind_eq_some_iff.mp h
    exact writes_operation (writes_of_writtenAll args hes) hoperation
  | .atom _ (_ :: _), _, h | .app _ (_ :: _) _, _, h => by
    rw [written?] at h
    · cases h
    all_goals simp

theorem writes_of_writtenAll : (ss : List Sexp) → ∀ {es : List (Expr Unit)},
    writtenAll? var ty ss = some es → List.Forall₂ (Writes var ty) ss es
  | [], es, h => by
    obtain rfl := Option.some.inj h
    exact .nil
  | s :: ss, es, h => by
    rw [writtenAll?] at h
    obtain ⟨e, he, h⟩ := Option.bind_eq_some_iff.mp h
    obtain ⟨rest, hrest, rfl⟩ := Option.map_eq_some_iff.mp h
    exact .cons (writes_of_written s he) (writes_of_writtenAll ss hrest)

end

mutual

/-- Numbering the nodes does not matter. -/
theorem Writes.number : ∀ {s : Sexp} {e : Expr α}, Writes var ty s e → ∀ next,
    Writes var ty s (e.number next).1
  | _, _, .atom hliteral, _ => .atom hliteral
  | _, _, .not ha, next => .not (ha.number next)
  | _, _, .neg ha, next => .neg (ha.number next)
  | _, _, .sub ha hb, next => .sub (ha.number next) (hb.number _)
  | _, _, .dyadic hhead hop hplain ha hb, next =>
    .dyadic hhead hop hplain (ha.number next) (hb.number _)
  | _, _, .add h, next => .add (h.number next)

theorem WritesSum.number : ∀ {ss : List Sexp} {e : Expr α}, WritesSum var ty ss e → ∀ next,
    WritesSum var ty ss (e.number next).1
  | _, _, .first ha, next => .first (ha.number next)
  | _, _, .next ha hb, next => .next (ha.number next) (hb.number _)

end

theorem atomsOfAll_append (ss ts : List Sexp) :
    atomsOfAll (ss ++ ts) = atomsOfAll ss ++ atomsOfAll ts := by
  induction ss with
  | nil => rfl
  | cons s ss ih => rw [List.cons_append, atomsOfAll, ih, atomsOfAll, List.append_assoc]

theorem atomsOfAll_singleton (s : Sexp) : atomsOfAll [s] = s.atoms := by
  rw [atomsOfAll, atomsOfAll, List.append_nil]

mutual

theorem Writes.native : ∀ {s : Sexp} {e : Expr α}, Writes var ty s e → e.Native ty
  | _, _, .atom _ => rfl
  | _, _, .not ha => ha.native
  | _, _, .neg ha => ha.native
  | _, _, .sub ha hb => ⟨rfl, ha.native, hb.native⟩
  | _, _, .dyadic _ _ hplain ha hb => ⟨hplain, ha.native, hb.native⟩
  | _, _, .add h => h.native

theorem WritesSum.native : ∀ {ss : List Sexp} {e : Expr α}, WritesSum var ty ss e → e.Native ty
  | _, _, .first ha => ha.native
  | _, _, .next ha hb => ⟨rfl, ha.native, hb.native⟩

end

mutual

theorem Writes.literal_eq_none : ∀ {s : Sexp} {e : Expr α}, Writes var ty s e →
    ∀ name ∈ s.atoms, literal? name = none
  | _, _, .atom hliteral => by
    rw [atoms]
    exact List.forall_mem_singleton.mpr hliteral
  | _, _, .not ha | _, _, .neg ha => by
    rw [atoms, atomsOfAll_singleton]
    exact ha.literal_eq_none
  | _, _, .sub ha hb | _, _, .dyadic _ _ _ ha hb => by
    rw [atoms, atomsOfAll, atomsOfAll_singleton]
    exact List.forall_mem_append.mpr ⟨ha.literal_eq_none, hb.literal_eq_none⟩
  | _, _, .add h => by
    rw [atoms]
    exact h.literal_eq_none

theorem WritesSum.literal_eq_none : ∀ {ss : List Sexp} {e : Expr α}, WritesSum var ty ss e →
    ∀ name ∈ atomsOfAll ss, literal? name = none
  | _, _, .first ha => by
    rw [atomsOfAll_singleton]
    exact ha.literal_eq_none
  | _, _, .next ha hb => by
    rw [atomsOfAll_append, atomsOfAll_singleton]
    exact List.forall_mem_append.mpr ⟨ha.literal_eq_none, hb.literal_eq_none⟩

end

mutual

/-- **The variables of what is written out stand in the order of the names.** -/
theorem Writes.names_eq : ∀ {s : Sexp} {e : Expr α}, Writes var ty s e →
    e.names = s.atoms.map var
  | _, _, .atom _ => by rw [atoms]; rfl
  | _, _, .not ha => by rw [Expr.names, ha.names_eq, atoms, atomsOfAll_singleton]
  | _, _, .neg ha => by rw [Expr.names, ha.names_eq, atoms, atomsOfAll_singleton]
  | _, _, .sub ha hb => by
    rw [Expr.names, ha.names_eq, hb.names_eq, atoms, atomsOfAll, atomsOfAll_singleton,
      List.map_append]
  | _, _, .dyadic _ _ _ ha hb => by
    rw [Expr.names, ha.names_eq, hb.names_eq, atoms, atomsOfAll, atomsOfAll_singleton,
      List.map_append]
  | _, _, .add h => by rw [h.names_eq, atoms]

theorem WritesSum.names_eq : ∀ {ss : List Sexp} {e : Expr α}, WritesSum var ty ss e →
    e.names = (atomsOfAll ss).map var
  | _, _, .first ha => by rw [ha.names_eq, atomsOfAll_singleton]
  | _, _, .next ha hb => by
    rw [Expr.names, ha.names_eq, hb.names_eq, atomsOfAll_append, atomsOfAll_singleton,
      List.map_append]

end

end Sexp

/-- A native expression over declared words can be read back from its text. -/
theorem Expr.Native.readable {α : Type} {ty : IntType} {vars : Typing} {e : Expr α}
    (h : e.Native ty) (hvars : ∀ name ∈ e.names, IsWord name ∧ vars.get? name = some ty) :
    e.Readable vars := by
  induction e with
  | var tag name vty =>
    obtain rfl : vty = ty := h
    exact hvars name List.mem_cons_self
  | const | cast | select => exact h.elim
  | unary _ _ a ih => exact ih h hvars
  | binary _ op a b iha ihb =>
    exact ⟨iha h.2.1 fun name hname => hvars name (List.mem_append_left _ hname),
      ihb h.2.2 fun name hname => hvars name (List.mem_append_right _ hname)⟩

end CustomIsa
