import CustomIsa.Proofs.Template.Arity
import CustomIsa.Proofs.Text.Pieces
/-! # Guards in the text of templates

The guards of an S-expression are those of all its names and operators (`Sexp.annotations`). Each of
them follows a colon, and every colon of the text is followed by one: the text of a template has as
many guards as colons (`Sexp.length_annotations`).

An immediate that is added in a sum is not matched with a part of its own; it takes what is left of
the constant. Guards written on it are *waived* (`Sexp.waived`). -/
namespace CustomIsa

namespace Text

theorem length_splitAll (p : Char → Bool) (cs : List Char) :
    (splitAll p cs).length = cs.countP p + 1 := by
  induction cs with
  | nil => rfl
  | cons c cs ih =>
    rw [splitAll]
    by_cases hc : p c = true
    · rw [if_pos hc, List.length_cons, ih, List.countP_cons_of_pos hc]
    · rw [if_neg hc, List.countP_cons_of_neg hc, ← ih]
      cases hsplit : splitAll p cs with
      | nil => exact absurd hsplit (splitAll_ne_nil p cs)
      | cons w ws => rfl

/-- The pieces of a text are the text without the characters that it was split at. -/
theorem flatten_splitAll (p : Char → Bool) (cs : List Char) :
    (splitAll p cs).flatten = cs.filter fun c => !p c := by
  induction cs with
  | nil => rfl
  | cons c cs ih =>
    rw [splitAll]
    by_cases hc : p c = true
    · rw [if_pos hc, List.flatten_cons, List.nil_append, ih, List.filter_cons_of_neg (by simp [hc])]
    · rw [if_neg hc, List.filter_cons_of_pos (by simp [hc]), ← ih]
      cases hsplit : splitAll p cs with
      | nil => exact absurd hsplit (splitAll_ne_nil p cs)
      | cons w ws => rfl

theorem flatten_words (cs : List Char) : (words cs).flatten = cs.filter fun c => !isBlank c := by
  rw [words, ← flatten_splitAll]
  exact List.flatten_filter_ne_nil

end Text

namespace Sexp

mutual

/-- The guards in an S-expression, from left to right. -/
def annotations : Sexp → List Guard
  | .atom _ guards => guards
  | .app _ guards args => guards ++ annotationsOfAll args

/-- The guards in a list of S-expressions. -/
def annotationsOfAll : List Sexp → List Guard
  | [] => []
  | s :: ss => s.annotations ++ annotationsOfAll ss

end

theorem annotationsOfAll_eq (ss : List Sexp) : annotationsOfAll ss = ss.flatMap annotations := by
  induction ss with
  | nil => rw [annotationsOfAll, List.flatMap_nil]
  | cons s ss ih => rw [annotationsOfAll, ih, List.flatMap_cons]

/-! ## Counting colons -/

theorem length_readGuards {pieces : List (List Char)} {guards : List Guard}
    (h : readGuards pieces = .ok guards) : guards.length = pieces.length := by
  induction pieces generalizing guards with
  | nil =>
    obtain rfl := Except.ok.inj h
    rfl
  | cons piece pieces ih =>
    rw [readGuards] at h
    split at h
    · cases h
    · obtain ⟨rest, hrest, rfl⟩ := map_eq_ok h
      rw [List.length_cons, List.length_cons, ih hrest]

/-- A token has as many guards as colons. -/
theorem length_splitGuards {token : List Char} {name : String} {guards : List Guard}
    (h : splitGuards token = .ok (name, guards)) : guards.length = token.count ':' := by
  have hlength := Text.length_splitAll (· = ':') token
  rw [splitGuards] at h
  split at h
  · rename_i hnil
    rw [hnil] at hlength
    cases hlength
  · rename_i first pieces hcons
    obtain ⟨rest, hrest, heq⟩ := map_eq_ok h
    obtain ⟨-, rfl⟩ := Prod.mk.inj heq
    rw [hcons, List.length_cons] at hlength
    rw [length_readGuards hrest, Nat.succ.inj hlength, List.count]
    rfl

/-- The guards read so far in a parenthesis that is still open. -/
def Frame.annotations (f : Frame) : List Guard := f.guards ++ f.args.flatMap Sexp.annotations

theorem Frame.length_annotations_push (f : Frame) (s : Sexp) :
    ({ f with args := s :: f.args } : Frame).annotations.length =
      f.annotations.length + s.annotations.length := by
  simp only [Frame.annotations, List.flatMap_cons, List.length_append]
  omega

theorem Frame.length_annotations_close (f : Frame) :
    f.close.annotations.length = f.annotations.length := by
  rw [Frame.close, Sexp.annotations, annotationsOfAll_eq, Frame.annotations, List.length_append,
    List.length_append, ((List.reverse_perm f.args).flatMap_right _).length_eq]

theorem finish_eq_ok {s s' : Sexp} {rest : List (List Char)} (h : finish s rest = .ok s') :
    rest = [] ∧ s' = s := by
  cases rest with
  | nil => exact ⟨rfl, (Except.ok.inj h).symm⟩
  | cons extra rest => cases h

/-- Reading turns the colons that are left into guards. -/
theorem length_readFrom {frames : List Frame} {tokens : List (List Char)} {s : Sexp}
    (h : readFrom frames tokens = .ok s) :
    s.annotations.length =
      (frames.flatMap Frame.annotations).length + tokens.flatten.count ':' := by
  fun_induction readFrom frames tokens with
  | case1 | case2 | case5 | case6 | case7 | case8 | case10 => cases h
  | case3 rest f =>
    obtain ⟨rfl, rfl⟩ := finish_eq_ok h
    rw [f.length_annotations_close, List.flatMap_singleton]
    rfl
  | case4 rest f g outer ih =>
    rw [ih h]
    simp only [List.flatMap_cons, List.length_append, g.length_annotations_push,
      f.length_annotations_close, List.flatten_cons, List.count_append]
    have hparenthesis : [')'].count ':' = 0 := rfl
    omega
  | case9 frames head rest _ _ name guards hsplit ih =>
    rw [ih h]
    simp only [List.flatMap_cons, List.length_append, Frame.annotations, List.flatMap_nil,
      List.length_nil, length_splitGuards hsplit, List.flatten_cons, List.count_append]
    have hparenthesis : ['('].count ':' = 0 := rfl
    omega
  | case11 word rest _ _ name guards hsplit =>
    obtain ⟨rfl, rfl⟩ := finish_eq_ok h
    simp [Sexp.annotations, length_splitGuards hsplit]
  | case12 word rest _ _ name guards hsplit f outer ih =>
    rw [ih h]
    simp only [List.flatMap_cons, List.length_append, f.length_annotations_push, Sexp.annotations,
      length_splitGuards hsplit, List.flatten_cons, List.count_append]
    omega

theorem count_tokens (text : String) : (tokens text).flatten.count ':' = text.toList.count ':' := by
  rw [tokens, Text.flatten_words, List.count_filter (by decide)]
  induction text.toList with
  | nil => rfl
  | cons c cs ih =>
    rw [List.flatMap_cons, List.count_append, ih, List.count_cons, Nat.add_comm]
    -- the blanks that are put around a parenthesis are no colons
    split <;> simp [List.count_cons]

/-- **The text of a template has as many guards as colons.** -/
theorem length_annotations {text : String} {s : Sexp} (h : ofText text = .ok s) :
    s.annotations.length = text.toList.count ':' := by
  rw [length_readFrom h, List.flatMap_nil, List.length_nil, Nat.zero_add, count_tokens]

/-! ## Guards on immediates in sums -/

/-- Whether the S-expression is the name of an immediate. -/
def namesImmediate (d : Definition) : Sexp → Bool
  | .atom name _ => (d.operand? name).any (·.kind = .immediate)
  | .app _ _ _ => false

mutual

/-- The guards in an S-expression that stand on an immediate that is added in a sum; `inSum` says
whether the S-expression itself is added in one. -/
def waivedIn (d : Definition) (inSum : Bool) : Sexp → List Guard
  | .atom name guards => if inSum && (atom name guards).namesImmediate d then guards else []
  | .app head _ args => waivedOfAll d (isAdditive head) args

/-- The guards in a list of S-expressions that stand on an immediate that is added in a sum. -/
def waivedOfAll (d : Definition) (inSum : Bool) : List Sexp → List Guard
  | [] => []
  | s :: ss => s.waivedIn d inSum ++ waivedOfAll d inSum ss

end

/-- The guards in an S-expression that stand on an immediate that is added in a sum. -/
def waived (d : Definition) (s : Sexp) : List Guard := s.waivedIn d false

end Sexp
end CustomIsa
