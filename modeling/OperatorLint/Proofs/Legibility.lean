import OperatorLint.Proofs.Addresses
import OperatorLint.Proofs.Grammar
import OperatorLint.Proofs.Quotation

/-!
# Trees that can be read back from their text

Nothing is added to a text to show how operations are grouped, so `$a - $b - $c` is the text of two
trees. When every operand of an operation is either no operation or stands in parentheses, the text
tells the tree. The first character of an expression tells its form. Names, integers and tokens end
at the first character that cannot belong to them, quoted texts at their closing quote, and all else
ends where its last part does. An operand is followed by a blank, a comma, a closing bracket or
nothing; what is not an operand is not followed by a blank. Two trees with a common text are
compared part by part along these ends.
-/

namespace OperatorLint

namespace Expr

variable {α β : Type}

/-- The character can start a name. -/
def isNameStart (c : Char) : Bool := c.isAlpha || c == '_'

/-- The character can stand in a name. -/
def isNamePart (c : Char) : Bool := c.isAlphanum || c == '_'

/-- The text is a letter or an underscore, with letters, digits and underscores behind it. -/
def isName : List Char → Bool
  | [] => false
  | c :: cs => isNameStart c && cs.all isNamePart

/-- The node itself does not stand in the way of reading its text: the name of a variable is one, a
constant is no double, and the operands of an operation are no operations. -/
def isLegible : Expr α → Bool
  | var _ name => isName name.toList
  | constant _ value => value.kind != .float
  | binary _ left _ right => !left.isOperation && !right.isOperation
  | null _ | list _ _ | paren _ _ => true

/-- All nodes are legible: names are names, no double occurs, and an operation is an operand in
parentheses only. -/
def Legible (e : Expr α) : Prop := ∀ n ∈ e.postorder, n.isLegible = true

instance (e : Expr α) : Decidable e.Legible :=
  decidable_of_iff (e.postorder.all isLegible = true) List.all_eq_true

/-- The root of a legible tree is legible. -/
theorem Legible.root {e : Expr α} (h : e.Legible) : e.isLegible = true :=
  h e (self_mem_postorder e)

/-- The parts of a legible tree are legible. -/
theorem Legible.child {e c : Expr α} (h : e.Legible) (hc : c ∈ e.children) : c.Legible := by
  intro n hn
  have hmem : n ∈ e.postorder := by
    rw [postorder_eq, List.mem_append]
    exact Or.inl (mem_postorderEach.mpr ⟨c, hc, hn⟩)
  exact h n hmem

/-- A name consists of characters that can stand in one. -/
theorem isNamePart_of_isName {name : List Char} (h : isName name = true) :
    ∀ c ∈ name, isNamePart c = true := by
  cases name with
  | nil => exact List.forall_mem_nil _
  | cons c cs =>
    rw [isName, Bool.and_eq_true, List.all_eq_true] at h
    have hfirst : isNamePart c = true := by
      have hstart := h.1
      rw [isNameStart, Bool.or_eq_true] at hstart
      rw [isNamePart, Char.isAlphanum, Bool.or_eq_true, Bool.or_eq_true]
      exact hstart.imp_left Or.inl
    exact List.forall_mem_cons.mpr ⟨hfirst, h.2⟩

/-- The operands of a legible operation are no operations. -/
theorem Legible.operands {tag : α} {left right : Expr α} {op : Operator}
    (h : (binary tag left op right).Legible) :
    left.isOperation = false ∧ right.isOperation = false := by
  have hroot := h.root
  rw [isLegible, Bool.and_eq_true, Bool.not_eq_true', Bool.not_eq_true'] at hroot
  exact hroot

/-- An expression is an operation or can be an operand as it is. -/
theorem operand_or_operation (e : Expr α) :
    e.isOperation = false ∨ ∃ tag left op right, e = binary tag left op right := by
  cases e with
  | binary tag left op right => exact Or.inr ⟨tag, left, op, right, rfl⟩
  | _ => exact Or.inl rfl

/-- The characters that can follow a whole expression inside another one. -/
def closers : List Char := [',', ')', ']']

/-- The characters that can follow an operand. -/
def delimiters : List Char := ' ' :: closers

/-- One of the given characters stands first, or nothing follows. -/
def StopsAt (ends rest : List Char) : Prop := ∀ c ∈ rest.head?, c ∈ ends

/-- What follows a whole expression can follow an operand. -/
theorem StopsAt.delimiters {rest : List Char} (h : StopsAt closers rest) :
    StopsAt delimiters rest := fun c hc => List.mem_cons_of_mem _ (h c hc)

/-- Nothing needs to follow. -/
theorem stopsAt_nil (ends : List Char) : StopsAt ends [] := by
  intro c hc
  cases hc

/-- A text that starts with one of the characters stops there. -/
theorem stopsAt_cons {ends rest : List Char} {c : Char} :
    StopsAt ends (c :: rest) ↔ c ∈ ends := by
  rw [StopsAt, List.head?_cons]
  exact ⟨fun h => h c rfl, fun h _ hc => Option.some.inj hc ▸ h⟩

/-- The blank in front of an operator ends an operand. -/
theorem stopsAt_blank (rest : List Char) : StopsAt delimiters (' ' :: rest) :=
  stopsAt_cons.mpr List.mem_cons_self

/-- Runs of characters at the start of one text are the same when none of the characters behind
them can belong to a run. -/
theorem run_append_inj {p : Char → Bool} {ends a b x y : List Char}
    (hends : ∀ c ∈ ends, p c = false) (ha : ∀ c ∈ a, p c = true) (hb : ∀ c ∈ b, p c = true)
    (hx : StopsAt ends x) (hy : StopsAt ends y) (h : a ++ x = b ++ y) : a = b ∧ x = y := by
  have hxp : ∀ c ∈ x.head?, p c = false := fun c hc => hends c (hx c hc)
  have hyp : ∀ c ∈ y.head?, p c = false := fun c hc => hends c (hy c hc)
  have htake := congrArg (List.takeWhile p) h
  have hdrop := congrArg (List.dropWhile p) h
  rw [Numeral.takeWhile_run ha hxp, Numeral.takeWhile_run hb hyp] at htake
  rw [Numeral.dropWhile_run ha hxp, Numeral.dropWhile_run hb hyp] at hdrop
  exact ⟨htake, hdrop⟩

/-- No token holds a blank. -/
theorem token_solid (op : Operator) : ∀ c ∈ op.token.toList, (c != ' ') = true := by
  have hall : Operator.all.all (fun op => op.token.toList.all (· != ' ')) = true := by decide
  exact List.all_eq_true.mp (List.all_eq_true.mp hall op (Operator.mem_all op))

/-- Operators between blanks at the start of one text are the same. -/
theorem token_append_inj {op op' : Operator} {x y : List Char}
    (h : op.token.toList ++ ' ' :: x = op'.token.toList ++ ' ' :: y) : op = op' ∧ x = y := by
  have hblank : ∀ rest, StopsAt [' '] (' ' :: rest) :=
    fun _ => stopsAt_cons.mpr List.mem_cons_self
  have hends : ∀ c ∈ [' '], (c != ' ') = false := List.forall_mem_singleton.mpr rfl
  obtain ⟨htoken, hrest⟩ :=
    run_append_inj hends (token_solid op) (token_solid op') (hblank x) (hblank y) h
  exact ⟨Operator.token_injective (String.toList_inj.mp htoken), (List.cons.inj hrest).2⟩

/-- The character can stand in the text of an integer. -/
def isIntegerPart (c : Char) : Bool := c.isDigit || c == '-'

/-- The text of an integer consists of a sign and digits. -/
theorem isIntegerPart_of_mem {value : Int64} :
    ∀ c ∈ Written.integerChars value, isIntegerPart c = true := by
  have hdigits : ∀ c ∈ Digits.write value.toInt.natAbs, isIntegerPart c = true := by
    intro c hc
    rw [isIntegerPart, Digits.isDigit_of_mem_write hc, Bool.true_or]
  rw [Written.integerChars, Written.signed]
  split
  · exact List.forall_mem_cons.mpr ⟨rfl, hdigits⟩
  · exact hdigits

/-- Different integers have different texts. -/
theorem integerChars_injective {a b : Int64}
    (h : Written.integerChars a = Written.integerChars b) : a = b := by
  have ha := Numeral.readTrimmed?_eq_some_iff.mpr (Numeral.spells_integerChars a)
  have hb := Numeral.readTrimmed?_eq_some_iff.mpr (Numeral.spells_integerChars b)
  rw [h, hb] at ha
  have hvalue := Numeral.integer?_integerChars a
  rw [← Option.some.inj ha, Numeral.integer?_integerChars b] at hvalue
  exact (Int64.toInt_inj.mp (Option.some.inj hvalue)).symm

/-- The text of an integer ends in front of a delimiter. -/
theorem isIntegerPart_of_mem_delimiters : ∀ c ∈ delimiters, isIntegerPart c = false := by
  simp [delimiters, closers, isIntegerPart]

/-- Literals of one kind at the start of one text are literals of the same constant, unless they are
doubles. -/
theorem literalChars_append_inj {a b : Constant} {x y : List Char} (hkind : a.kind = b.kind)
    (hfloat : a.kind ≠ .float) (hx : StopsAt delimiters x) (hy : StopsAt delimiters y)
    (h : a.literalChars ++ x = b.literalChars ++ y) : a = b ∧ x = y := by
  cases a with
  | float => exact absurd rfl hfloat
  | bool a =>
    cases b with
    | bool b =>
      cases a <;> cases b
      case false.false | true.true => exact ⟨rfl, List.append_cancel_left h⟩
      case false.true | true.false => exact absurd (List.cons.inj h).1 (by decide)
    | int | float | string => cases hkind
  | int a =>
    cases b with
    | int b =>
      obtain ⟨htext, hrest⟩ := run_append_inj isIntegerPart_of_mem_delimiters
        isIntegerPart_of_mem isIntegerPart_of_mem hx hy h
      exact ⟨congrArg Constant.int (integerChars_injective htext), hrest⟩
    | bool | float | string => cases hkind
  | string a =>
    cases b with
    | string b =>
      obtain ⟨htext, hrest⟩ := Quoted.quoteChars_append_inj.mp h
      exact ⟨congrArg Constant.string (String.toList_inj.mp htext), hrest⟩
    | bool | int | float => cases hkind

/-- What the first character of an expression tells. -/
inductive Form where
  /-- A variable. -/
  | variable
  /-- A constant of a kind. -/
  | constant (kind : Kind)
  /-- The keyword `null`. -/
  | null
  /-- An array literal. -/
  | list
  /-- An expression in parentheses. -/
  | group

/-- The form of the expressions that start with a character. -/
def Form.ofChar? (c : Char) : Option Form :=
  if isIntegerPart c then some (.constant .int)
  else match c with
    | '$' => some .variable
    | '\'' => some (.constant .string)
    | 't' | 'f' => some (.constant .bool)
    | 'n' => some .null
    | '[' => some .list
    | '(' => some .group
    | _ => none

/-- The form of the leftmost operand, which starts the text. -/
def form : Expr α → Form
  | var _ _ => .variable
  | constant _ value => .constant value.kind
  | null _ => .null
  | list _ _ => .list
  | paren _ _ => .group
  | binary _ left _ _ => left.form

/-- The literal of a constant other than a double starts with a character for its kind. -/
theorem exists_lead_literal {value : Constant} (h : value.kind ≠ .float) :
    ∃ c cs, value.literalChars = c :: cs ∧ Form.ofChar? c = some (.constant value.kind) := by
  cases value with
  | float => exact absurd rfl h
  | bool value => cases value <;> exact ⟨_, _, rfl, rfl⟩
  | string text => exact ⟨_, _, rfl, rfl⟩
  | int value =>
    obtain ⟨c, cs, hchars⟩ := List.exists_cons_of_ne_nil (Numeral.spells_integerChars value).ne_nil
    have hpart : isIntegerPart c = true :=
      isIntegerPart_of_mem c (hchars ▸ List.mem_cons_self)
    exact ⟨c, cs, hchars, if_pos hpart⟩

/-- A legible expression starts with a character for its form. -/
theorem Legible.exists_lead {e : Expr α} (h : e.Legible) :
    ∃ c cs, e.chars = c :: cs ∧ Form.ofChar? c = some e.form := by
  induction e using childInduction with
  | node e ih =>
    cases e with
    | var | null | list | paren => exact ⟨_, _, rfl, rfl⟩
    | constant _ value =>
      have hroot := h.root
      rw [isLegible, bne_iff_ne] at hroot
      exact exists_lead_literal hroot
    | binary _ left op right =>
      have hleft : left ∈ [left, right] := List.mem_cons_self
      obtain ⟨c, cs, hchars, hform⟩ := ih left hleft (h.child hleft)
      exact ⟨c, _, by rw [chars, hchars, List.cons_append], hform⟩

/-- Legible expressions at the start of one text have the same form. -/
theorem Legible.form_eq {e : Expr α} {e' : Expr β} (h : e.Legible) (h' : e'.Legible)
    {x y : List Char} (htext : e.chars ++ x = e'.chars ++ y) : e.form = e'.form := by
  obtain ⟨c, cs, hchars, hform⟩ := h.exists_lead
  obtain ⟨c', cs', hchars', hform'⟩ := h'.exists_lead
  rw [hchars, hchars', List.cons_append, List.cons_append, List.cons.injEq] at htext
  rw [htext.1, hform'] at hform
  exact (Option.some.inj hform).symm

/-- No legible expression starts with a closing bracket. -/
theorem Legible.chars_append_ne {e : Expr α} (h : e.Legible) (x y : List Char) :
    e.chars ++ x ≠ ']' :: y := by
  obtain ⟨c, cs, hchars, hform⟩ := h.exists_lead
  rw [hchars, List.cons_append]
  intro htext
  have hnone : Form.ofChar? c = none := by rw [(List.cons.inj htext).1]; rfl
  rw [hnone] at hform
  cases hform

/-- A text that starts with both expressions, each up to one of the characters that end it, tells
that they have the same shape and where they end. -/
def Told (ends : List Char) (e : Expr α) (e' : Expr β) : Prop :=
  ∀ x y, StopsAt ends x → StopsAt ends y → e.chars ++ x = e'.chars ++ y →
    e.shape = e'.shape ∧ x = y

/-- It does not matter which of the two comes first. -/
theorem Told.symm {ends : List Char} {e : Expr α} {e' : Expr β} (h : Told ends e e') :
    Told ends e' e := by
  intro x y hx hy htext
  obtain ⟨hshape, hrest⟩ := h y x hy hx htext.symm
  exact ⟨hshape.symm, hrest.symm⟩

/-- The text of an item behind another one, with the separator. -/
def separated (e : Expr α) : List Char := ',' :: ' ' :: e.chars

/-- Items between separators are the first one and the other ones with their separators. -/
theorem intercalate_chars (e : Expr α) (es : List (Expr α)) :
    [',', ' '].intercalate ((e :: es).map chars) = e.chars ++ es.flatMap separated := by
  induction es generalizing e with
  | nil => exact List.intercalate_singleton.trans (List.append_nil _).symm
  | cons e' es ih =>
    have hrest := ih e'
    rw [List.map_cons] at hrest
    rw [List.map_cons, List.map_cons, List.intercalate_cons_cons, hrest, List.append_assoc,
      List.flatMap_cons, separated]
    rfl

/-- A text that starts with a list of at least one item. -/
theorem chars_list_append (tag : α) (e : Expr α) (es : List (Expr α)) (x : List Char) :
    (list tag (e :: es)).chars ++ x = '[' :: (e.chars ++ (es.flatMap separated ++ ']' :: x)) := by
  rw [chars, charsEach_eq_map, intercalate_chars, List.cons_append, List.append_assoc,
    List.append_assoc]
  rfl

/-- A text that starts with an expression in parentheses. -/
theorem chars_paren_append (tag : α) (e : Expr α) (x : List Char) :
    (paren tag e).chars ++ x = '(' :: (e.chars ++ ')' :: x) := by
  rw [chars, List.cons_append, List.append_assoc]
  rfl

/-- A text that starts with an operation. -/
theorem chars_binary_append (tag : α) (left : Expr α) (op : Operator) (right : Expr α)
    (x : List Char) : (binary tag left op right).chars ++ x =
      left.chars ++ ' ' :: (op.token.toList ++ ' ' :: (right.chars ++ x)) := by
  rw [chars, List.append_assoc, List.cons_append, List.append_assoc]
  rfl

/-- The shape of a list has the shapes of its items. -/
theorem shape_list (tag : α) (es : List (Expr α)) :
    (list tag es).shape = list () (es.map shape) := by
  rw [shape, mapTags, mapTagsEach_eq_map]
  rfl

/-- The shape of an expression in parentheses has the shape of the one inside. -/
theorem shape_paren (tag : α) (e : Expr α) : (paren tag e).shape = paren () e.shape := rfl

/-- The shape of an operation has the shapes of its operands. -/
theorem shape_binary (tag : α) (left : Expr α) (op : Operator) (right : Expr α) :
    (binary tag left op right).shape = binary () left.shape op right.shape := rfl

/-- Behind an item stands a comma or the closing bracket. -/
theorem stopsAt_separated (es : List (Expr α)) (x : List Char) :
    StopsAt closers (es.flatMap separated ++ ']' :: x) := by
  cases es with
  | nil => exact stopsAt_cons.mpr (by decide)
  | cons e es =>
    rw [List.flatMap_cons, separated, List.cons_append, List.cons_append]
    exact stopsAt_cons.mpr (by decide)

/-- Items behind a first one are told up to the closing bracket when each of them is. -/
theorem told_separated {es : List (Expr α)} {es' : List (Expr β)}
    (h : ∀ e ∈ es, ∀ e' ∈ es', Told closers e e') {x y : List Char}
    (htext : es.flatMap separated ++ ']' :: x = es'.flatMap separated ++ ']' :: y) :
    es.map shape = es'.map shape ∧ x = y := by
  induction es generalizing es' with
  | nil =>
    cases es' with
    | nil => exact ⟨rfl, (List.cons.inj htext).2⟩
    | cons e' es' => exact absurd (List.cons.inj htext).1 (by decide)
  | cons e es ih =>
    cases es' with
    | nil => exact absurd (List.cons.inj htext).1 (by decide)
    | cons e' es' =>
      rw [List.flatMap_cons, List.flatMap_cons, List.append_assoc, List.append_assoc] at htext
      have hitems := (List.cons.inj (List.cons.inj htext).2).2
      have hfirst := h e List.mem_cons_self e' List.mem_cons_self
      obtain ⟨hshape, hrest⟩ :=
        hfirst _ _ (stopsAt_separated es x) (stopsAt_separated es' y) hitems
      have hothers : ∀ e ∈ es, ∀ e' ∈ es', Told closers e e' := fun e he e' he' =>
        h e (List.mem_cons_of_mem _ he) e' (List.mem_cons_of_mem _ he')
      obtain ⟨hshapes, hend⟩ := ih hothers hrest
      rw [List.map_cons, List.map_cons, hshape, hshapes]
      exact ⟨rfl, hend⟩

/-- A variable is told by its name, which ends in front of a delimiter. -/
theorem told_var {tag : α} {tag' : β} {name name' : String} (h : (var tag name).Legible)
    (h' : (var tag' name').Legible) : Told delimiters (var tag name) (var tag' name') := by
  intro x y hx hy htext
  have hbehind : name.toList ++ x = name'.toList ++ y := (List.cons.inj htext).2
  have hends : ∀ c ∈ delimiters, isNamePart c = false := by
    simp [delimiters, closers, isNamePart]
  obtain ⟨hname, hrest⟩ := run_append_inj hends (isNamePart_of_isName h.root)
    (isNamePart_of_isName h'.root) hx hy hbehind
  rw [String.toList_inj.mp hname]
  exact ⟨rfl, hrest⟩

/-- A list is told by its items, each of which ends in front of a comma or the bracket. With a
separator in front of the first item too, all items are alike. -/
theorem told_list {tag : α} {tag' : β} {es : List (Expr α)} {es' : List (Expr β)}
    (h : ∀ e ∈ es, e.Legible) (h' : ∀ e ∈ es', e.Legible)
    (hitems : ∀ e ∈ es, ∀ e' ∈ es', Told closers e e') {ends : List Char} :
    Told ends (list tag es) (list tag' es') := by
  intro x y _ _ htext
  rw [shape_list, shape_list]
  cases es with
  | nil =>
    cases es' with
    | nil => exact ⟨rfl, (List.cons.inj (List.cons.inj htext).2).2⟩
    | cons e' es' =>
      rw [chars_list_append] at htext
      have hfirst := h' e' List.mem_cons_self
      exact absurd (List.cons.inj htext).2.symm (hfirst.chars_append_ne _ _)
  | cons e es =>
    cases es' with
    | nil =>
      rw [chars_list_append] at htext
      have hfirst := h e List.mem_cons_self
      exact absurd (List.cons.inj htext).2 (hfirst.chars_append_ne _ _)
    | cons e' es' =>
      rw [chars_list_append, chars_list_append, List.cons.injEq] at htext
      have hall : (e :: es).flatMap separated ++ ']' :: x =
          (e' :: es').flatMap separated ++ ']' :: y := by
        rw [List.flatMap_cons, List.flatMap_cons, separated, separated, List.append_assoc,
          List.append_assoc, List.cons_append, List.cons_append, List.cons_append,
          List.cons_append, htext.2]
      obtain ⟨hshapes, hrest⟩ := told_separated hitems hall
      rw [hshapes]
      exact ⟨rfl, hrest⟩

/-- An expression in parentheses is told when the one inside is told up to the closing one. -/
theorem told_paren {tag : α} {tag' : β} {e : Expr α} {e' : Expr β} (h : Told closers e e')
    {ends : List Char} : Told ends (paren tag e) (paren tag' e') := by
  intro x y _ _ htext
  rw [chars_paren_append, chars_paren_append, List.cons.injEq] at htext
  have hclose : ∀ rest, StopsAt closers (')' :: rest) := fun _ => stopsAt_cons.mpr (by decide)
  obtain ⟨hshape, hrest⟩ := h _ _ (hclose x) (hclose y) htext.2
  rw [shape_paren, shape_paren, hshape]
  exact ⟨rfl, (List.cons.inj hrest).2⟩

/-- Expressions that are no operations are told up to a delimiter when their parts are told. -/
theorem told_operand {e : Expr α} {e' : Expr β} (h : e.Legible) (h' : e'.Legible)
    (hop : e.isOperation = false) (hop' : e'.isOperation = false)
    (hparts : ∀ c ∈ e.children, ∀ c' : Expr β, c'.Legible → Told closers c c') :
    Told delimiters e e' := by
  intro x y hx hy htext
  have hform := h.form_eq h' htext
  cases e with
  | binary => cases hop
  | var tag name =>
    cases e' with
    | binary => cases hop'
    | var tag' name' => exact told_var h h' x y hx hy htext
    | constant | null | list | paren => cases hform
  | constant tag value =>
    cases e' with
    | binary => cases hop'
    | constant tag' value' =>
      have hfloat := h.root
      rw [isLegible, bne_iff_ne] at hfloat
      obtain ⟨hvalue, hrest⟩ := literalChars_append_inj (Form.constant.inj hform) hfloat hx hy htext
      rw [hvalue]
      exact ⟨rfl, hrest⟩
    | var | null | list | paren => cases hform
  | null tag =>
    cases e' with
    | binary => cases hop'
    | null tag' => exact ⟨rfl, List.append_cancel_left htext⟩
    | var | constant | list | paren => cases hform
  | list tag es =>
    cases e' with
    | binary => cases hop'
    | list tag' es' =>
      have hitems : ∀ e ∈ es, ∀ e' ∈ es', Told closers e e' :=
        fun e he e' he' => hparts e he e' (h'.child he')
      exact told_list (fun _ => h.child) (fun _ => h'.child) hitems x y hx hy htext
    | var | constant | null | paren => cases hform
  | paren tag e =>
    cases e' with
    | binary => cases hop'
    | paren tag' e' =>
      have hinner := hparts e List.mem_cons_self e' (h'.child List.mem_cons_self)
      exact told_paren hinner x y hx hy htext
    | var | constant | null | list => cases hform

/-- An operation is told by its operands, which end in front of the blanks around the operator and
where the operation does. -/
theorem told_operation {tag : α} {tag' : β} {left right : Expr α} {left' right' : Expr β}
    {op op' : Operator} (hleft : Told delimiters left left')
    (hright : Told delimiters right right') :
    Told closers (binary tag left op right) (binary tag' left' op' right') := by
  intro x y hx hy htext
  rw [chars_binary_append, chars_binary_append] at htext
  obtain ⟨hshape, hbehind⟩ := hleft _ _ (stopsAt_blank _) (stopsAt_blank _) htext
  obtain ⟨hop, hoperand⟩ := token_append_inj (List.cons.inj hbehind).2
  obtain ⟨hshape', hrest⟩ := hright x y hx.delimiters hy.delimiters hoperand
  rw [shape_binary, shape_binary, hshape, hshape', hop]
  exact ⟨rfl, hrest⟩

/-- An operand in front of what ends an expression does not start an operation: the operator would
stand behind a blank. -/
theorem ne_operation {tag : β} {e : Expr α} {left right : Expr β} {op : Operator}
    (h : Told delimiters e left) {x : List Char} (hx : StopsAt closers x) (y : List Char) :
    e.chars ++ x ≠ (binary tag left op right).chars ++ y := by
  rw [chars_binary_append]
  intro htext
  obtain ⟨_, hrest⟩ := h _ _ hx.delimiters (stopsAt_blank _) htext
  rw [hrest, stopsAt_cons] at hx
  exact absurd hx (by decide)

/-- Whole expressions are told up to what closes them when their operands are told. -/
theorem told_whole {e : Expr α} {e' : Expr β} (h : e.Legible) (h' : e'.Legible)
    (hself : e.isOperation = false → ∀ c' : Expr β, c'.Legible → c'.isOperation = false →
      Told delimiters e c')
    (hparts : ∀ c ∈ e.children, c.isOperation = false → ∀ c' : Expr β, c'.Legible →
      c'.isOperation = false → Told delimiters c c') : Told closers e e' := by
  intro x y hx hy htext
  rcases operand_or_operation e with hop | ⟨tag, left, op, right, rfl⟩
  · rcases operand_or_operation e' with hop' | ⟨tag', left', op', right', rfl⟩
    · exact hself hop e' h' hop' x y hx.delimiters hy.delimiters htext
    · have hleft := hself hop left' (h'.child List.mem_cons_self) h'.operands.1
      exact absurd htext (ne_operation hleft hx y)
  · have hl : left ∈ [left, right] := List.mem_cons_self
    have hr : right ∈ [left, right] := List.mem_cons_of_mem _ List.mem_cons_self
    rcases operand_or_operation e' with hop' | ⟨tag', left', op', right', rfl⟩
    · have hleft := hparts left hl h.operands.1 e' h' hop'
      exact absurd htext.symm (ne_operation hleft.symm hy x)
    · have hleft := hparts left hl h.operands.1 left' (h'.child List.mem_cons_self) h'.operands.1
      have hright := hparts right hr h.operands.2 right'
        (h'.child (List.mem_cons_of_mem _ List.mem_cons_self)) h'.operands.2
      exact told_operation hleft hright x y hx hy htext

/-- Legible trees are told by their texts: operands up to a delimiter, and any trees up to what
closes them. Both are shown together: the items of a list and what stands in parentheses are whole
trees, and the parts of an operation are operands. -/
theorem Legible.told {e : Expr α} (h : e.Legible) {e' : Expr β} (h' : e'.Legible) :
    (e.isOperation = false → e'.isOperation = false → Told delimiters e e') ∧
      Told closers e e' := by
  induction e using childInduction generalizing e' with
  | node e ih =>
    have hoperand : e.isOperation = false → ∀ c' : Expr β, c'.Legible →
        c'.isOperation = false → Told delimiters e c' := fun hop c' hc' hop' =>
      told_operand h hc' hop hop' fun c hc d' hd' => (ih c hc (h.child hc) hd').2
    refine ⟨fun hop hop' => hoperand hop e' h' hop', ?_⟩
    exact told_whole h h' hoperand fun c hc hop c' hc' hop' => (ih c hc (h.child hc) hc').1 hop hop'

/-- Trees in which names are names, no double occurs and no operand of an operation is an operation
are the same up to their tags when they have the same text. -/
theorem shape_eq_of_text_eq {e : Expr α} {e' : Expr β} (h : e.Legible) (h' : e'.Legible)
    (htext : e.text = e'.text) : e.shape = e'.shape := by
  have hchars : e.chars ++ [] = e'.chars ++ [] := by
    have htoList := congrArg String.toList htext
    rw [text, text, String.toList_ofList, String.toList_ofList] at htoList
    rw [htoList]
  exact ((h.told h').2 [] [] (stopsAt_nil _) (stopsAt_nil _) hchars).1

/-- A difference in parentheses, with a negative integer behind its sign, and a list with a text
that looks like one are joined by a word, once as written and once as made by the analysis. -/
theorem shape_eq_of_text_eq_grouped :
    let tree (tag : Origin) : Expr Origin := .binary tag
      (.paren tag (.binary tag (.var tag "a_1") (.compute .minus) (.constant tag (.int (-1)))))
      (.connect .logicalXor)
      (.list tag [.constant tag (.string "', ['\\"), .null tag, .list tag []])
    let e := tree (.written (.emptyAt 3))
    let e' := tree .invented
    e.Legible ∧ e'.Legible ∧ e.text = e'.text ∧ e.shape = e'.shape := by
  intro tree e e'
  have h : e.Legible := by decide
  have h' : e'.Legible := by decide
  have htext : e.text = e'.text := rfl
  exact ⟨h, h', htext, shape_eq_of_text_eq h h' htext⟩

/-- Without parentheses a difference of three is written alike however it is grouped. -/
example (a b c : Expr α) (tag : α) :
    (binary tag (binary tag a (.compute .minus) b) (.compute .minus) c).text =
      (binary tag a (.compute .minus) (binary tag b (.compute .minus) c)).text := by
  simp [text, chars]

end Expr

end OperatorLint
