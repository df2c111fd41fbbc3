import CustomIsa.Proofs.Expr.Render

/-! # Rendered trees

A tree that was read from text can be rendered and read again, if the literals of the text are plain
decimals and no variable has the short name of a type (`ExprTree.ofText_rendered`). Rendering drops
what leaves no node, such as parentheses and plus signs, and it spells types by their short names.
What is left is readable (`Expr.readable_of_ofText`): each production of the grammar keeps to it. -/
namespace CustomIsa
namespace Expr
variable {vars : Typing} {text : String}

/-- The short names of the types that a cast can name. -/
def shortTypeNames : List String := ["u8", "u16", "u32", "u64", "i8", "i16", "i32", "i64"]

/-- A type that a cast names is also named by its short name. -/
theorem ofWords_shortName {words : List String} {ty : IntType}
    (h : IntType.ofWords? words = some ty) :
    IntType.ofWords? [ty.shortName] = some ty ∧ ty.shortName ∈ shortTypeNames :=
  (by decide +kernel : ∀ ty ∈ [IntType.u8, .u16, .u32, .u64, .i8, .i16, .i32, .i64],
    IntType.ofWords? [ty.shortName] = some ty ∧ ty.shortName ∈ shortTypeNames) ty
    (mem_of_ofWords h)

/-- If the lexeme is a literal, it has neither the mark of another base nor a suffix. -/
def Lexeme.Decimal : Lexeme → Prop
  | .integer _ hex unsigned long => hex = false ∧ unsigned = false ∧ long = false
  | .word _ | .symbol _ => True

instance : DecidablePred Lexeme.Decimal
  | .integer _ hex unsigned long =>
    inferInstanceAs (Decidable (hex = false ∧ unsigned = false ∧ long = false))
  | .word _ | .symbol _ => isTrue trivial

/-- Each production keeps what makes the text of an expression readable. A cast needs that its type
has a short name which is no variable, a literal that its type is that of its bare digits. -/
theorem productions_readable (hnames : ∀ name ∈ shortTypeNames, vars.contains name = false) :
    Productions vars (fun l => (∀ name, l = .word name → IsWord name) ∧ l.Decimal)
      (Readable vars) where
  var name ty hname hty := ⟨hname.1 name rfl, hty⟩
  const v hex unsigned long ty hv hty := by
    obtain ⟨-, rfl, rfl, rfl⟩ := hv
    exact ⟨v, rfl, hty⟩
  neg a ha := ha
  not a _ ha := ha
  cast first more ty a _ _ hty ha := by
    obtain ⟨hshort, hmem⟩ := ofWords_shortName hty
    exact ⟨⟨hshort, hnames _ hmem⟩, ha⟩
  binary op a b _ ha hb := ⟨ha, hb⟩
  select c a b _ hc ha hb := ⟨hc, ha, hb⟩

/-- **What is read from plain decimals can be rendered and read again.** -/
theorem readable_of_ofText {e : Expr Unit} (h : ofText vars text = .ok e)
    (hdecimal : Written Lexeme.Decimal text)
    (hnames : ∀ name ∈ shortTypeNames, vars.contains name = false) : e.Readable vars := by
  obtain ⟨tokens, hlex, htokens⟩ := hdecimal
  exact (productions_readable hnames).ofText hlex
    (fun t ht => ⟨words_lexFrom hlex t ht, htokens t ht⟩) h

/-- Numbers do not show in the text of an expression. -/
theorem render_number {α : Type} (e : Expr α) (next : Nat) :
    (e.number next).1.render = e.render := by
  induction e generalizing next with
  | var | const => rfl
  | unary tag op a ih => simp only [number, render, ih]
  | cast tag ty a ih => simp only [number, render, ih]
  | binary tag op a b iha ihb => simp only [number, render, iha, ihb]
  | select tag c a b ihc iha ihb => simp only [number, render, ihc, iha, ihb]

end Expr

namespace ExprTree
open CustomIsa.Expr

/-- **Rendering a tree and reading the text gives the tree again.** Let a tree be read from a text
whose literals are decimals without a suffix, where no variable has the short name of a type. Then
its rendered text is read as the same tree: the same nodes with the same types, numbers and root. -/
theorem ofText_rendered {vars : Typing} {text : String} {t : ExprTree}
    (h : ofText vars text = .ok t) (hdecimal : Written Lexeme.Decimal text)
    (hnames : ∀ name ∈ shortTypeNames, vars.contains name = false) :
    ofText vars t.render = .ok t := by
  obtain ⟨e, he, rfl⟩ := map_eq_ok h
  have hrender : (ofExpr e).render = e.render := render_number e 0
  rw [hrender, ofText, Expr.ofText_render (readable_of_ofText he hdecimal hnames)]
  rfl

/-- A variable may have another name of a type: `(uint8) + …` is then no cast. A plus sign, which is
read after the cast to `unsigned char`, leaves no trace. -/
theorem ofText_rendered_conditional :
    ∃ t, ofText (.ofList [("uint8", .u32), ("x", .i16), ("y", .u64)])
        "(uint8) + ~- -(long)(unsigned char)+(x << 3) * y >= 2147483648 ? y : uint8 ? -x : 07" =
        .ok t ∧
      t.render = "(((uint8 + (~--(i64)(u8)(x << 3) * y)) >= 2147483648) ? y : (uint8 ? -x : 7))" ∧
      ofText (.ofList [("uint8", .u32), ("x", .i16), ("y", .u64)]) t.render = .ok t := by
  have hrun : (ofText (.ofList [("uint8", .u32), ("x", .i16), ("y", .u64)])
      "(uint8) + ~- -(long)(unsigned char)+(x << 3) * y >= 2147483648 ? y : uint8 ? -x : 07"
      ).toOption.any (fun t => t.render =
        "(((uint8 + (~--(i64)(u8)(x << 3) * y)) >= 2147483648) ? y : (uint8 ? -x : 7))") =
      true := by
    decide +kernel
  obtain ⟨t, htext, hrender⟩ := Option.any_eq_true _ _ |>.mp hrun
  have htext := eq_ok_of_toOption htext
  exact ⟨t, htext, of_decide_eq_true hrender,
    ofText_rendered htext (by decide +kernel) (by decide +kernel)⟩

end ExprTree
end CustomIsa
