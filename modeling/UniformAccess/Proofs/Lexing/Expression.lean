import UniformAccess.Proofs.Lexing.Fit
import UniformAccess.Proofs.Printing.Mapped
/-!
# Expressions read back

An expression tree has every node where one of its kind belongs, and single tokens for its names and literals
(`Tree.Shaped`). Its tokens fit one after the other (`Shaped.reads`), whatever the positions are, so its text is read
back token by token unless tokens touch that clash (`reread_expression`): a minus sign in front of a negative operand
does.
-/
namespace UniformAccess

open Lexing Script

namespace Lexing

/-- What stands in an expression tree. -/
inductive Part where
  | expr
  | type
  | param
  | var
  | stmt
deriving DecidableEq, Repr

namespace Part

/-- How a part begins. -/
def first : Part → Token → Prop
  | expr | stmt => Opens
  | type | param | var => fun a => isIdentifier a = true

/-- How a part ends. -/
def last : Part → Token → Prop
  | expr | var => EndsExpr
  | type => EndsType
  | param => fun a => isIdentifier a = true
  | stmt => Settled

end Part

def isLiteral (a : Token) : Bool := isIdentifier a || isNumber a || isQuoted a

end Lexing

/-- **The node is the root of an expression tree**, or of a part of one, whose names and literals are single tokens. -/
inductive Tree.Shaped (t : Tree) : Part → NodeId → Prop
  | name {x : NodeId} {name : String} : t.kind? x = some (.nameExpr name) → isIdentifier name.toList = true →
      Shaped t .expr x
  | literal {x : NodeId} {l : Literal} : t.kind? x = some (.literal l) → isLiteral l.text.toList = true →
      Shaped t .expr x
  | this {x : NodeId} : t.kind? x = some .thisExpr → Shaped t .expr x
  | access {x scope : NodeId} {member : Ident} : t.kind? x = some (.fieldAccess scope member) →
      isIdentifier member.name.toList = true → Shaped t .expr scope → Shaped t .expr x
  | call {x : NodeId} {scope : Option NodeId} {name : Ident} {args : List NodeId} :
      t.kind? x = some (.call scope name args) → isIdentifier name.name.toList = true →
      (∀ s ∈ scope, Shaped t .expr s) → (∀ a ∈ args, Shaped t .expr a) → Shaped t .expr x
  | assign {x target value : NodeId} {op : AssignOp} : t.kind? x = some (.assign target op value) →
      Shaped t .expr target → Shaped t .expr value → Shaped t .expr x
  | binary {x left right : NodeId} {op : BinaryOp} : t.kind? x = some (.binary left op right) → Shaped t .expr left →
      Shaped t .expr right → Shaped t .expr x
  | unary {x expr : NodeId} {op : UnaryOp} : t.kind? x = some (.unary op expr) → Shaped t .expr expr → Shaped t .expr x
  | newObject {x ty : NodeId} {args : List NodeId} : t.kind? x = some (.newObject ty args) → Shaped t .type ty →
      (∀ a ∈ args, Shaped t .expr a) → Shaped t .expr x
  | paren {x inner : NodeId} : t.kind? x = some (.paren inner) → Shaped t .expr inner → Shaped t .expr x
  | lambda {x body : NodeId} {params : List NodeId} {isParenthesized : Bool} {part : Part} :
      t.kind? x = some (.lambda params isParenthesized body) → (isParenthesized = true ∨ params ≠ []) →
      (∀ p ∈ params, Shaped t .param p) → (part = .expr ∨ part = .stmt) → Shaped t part body → Shaped t .expr x
  | conditional {x cond yes no : NodeId} : t.kind? x = some (.conditional cond yes no) → Shaped t .expr cond →
      Shaped t .expr yes → Shaped t .expr no → Shaped t .expr x
  | cast {x ty expr : NodeId} : t.kind? x = some (.cast ty expr) → Shaped t .type ty → Shaped t .expr expr →
      Shaped t .expr x
  | index {x array index : NodeId} : t.kind? x = some (.indexExpr array index) → Shaped t .expr array →
      Shaped t .expr index → Shaped t .expr x
  | localVar {x : NodeId} {d : VarsDecl} : t.kind? x = some (.localVar d) → d.modifiers.annotations = [] →
      d.vars ≠ [] → Shaped t .type d.ty → (∀ v ∈ d.vars, Shaped t .var v) → Shaped t .expr x
  | var {x : NodeId} {name : Ident} {init : Option NodeId} : t.kind? x = some (.var name init) →
      isIdentifier name.name.toList = true → (∀ i ∈ init, Shaped t .expr i) → Shaped t .var x
  | primitiveType {x : NodeId} {p : Primitive} : t.kind? x = some (.primitiveType p) → Shaped t .type x
  | voidType {x : NodeId} : t.kind? x = some .voidType → Shaped t .type x
  | classType {x : NodeId} {scope : Option NodeId} {name : String} {args : List NodeId} :
      t.kind? x = some (.classType scope name args) → isIdentifier name.toList = true →
      (∀ s ∈ scope, Shaped t .type s) → (∀ a ∈ args, Shaped t .type a) → Shaped t .type x
  | arrayType {x elem : NodeId} {dims : Nat} : t.kind? x = some (.arrayType elem dims) → Shaped t .type elem →
      Shaped t .type x
  | param {x : NodeId} {d : ParamDecl} : t.kind? x = some (.param d) → d.modifiers.annotations = [] →
      isIdentifier d.name.name.toList = true → (∀ ty ∈ d.ty, Shaped t .type ty) → Shaped t .param x
  | block {x : NodeId} {stmts : List NodeId} : t.kind? x = some (.block stmts) → (∀ s ∈ stmts, Shaped t .stmt s) →
      Shaped t .stmt x
  | exprStmt {x expr : NodeId} : t.kind? x = some (.exprStmt expr) → Shaped t .expr expr → Shaped t .stmt x
  | ifStmt {x cond yes : NodeId} {no : Option NodeId} : t.kind? x = some (.ifStmt cond yes no) →
      Shaped t .expr cond → Shaped t .stmt yes → (∀ n ∈ no, Shaped t .stmt n) → Shaped t .stmt x
  | whileStmt {x cond body : NodeId} : t.kind? x = some (.whileStmt cond body) → Shaped t .expr cond →
      Shaped t .stmt body → Shaped t .stmt x
  | forStmt {x body : NodeId} {init update : List NodeId} {cond : Option NodeId} :
      t.kind? x = some (.forStmt init cond update body) → (∀ i ∈ init, Shaped t .expr i) →
      (∀ c ∈ cond, Shaped t .expr c) → (∀ u ∈ update, Shaped t .expr u) → Shaped t .stmt body → Shaped t .stmt x
  | returnStmt {x : NodeId} {expr : Option NodeId} : t.kind? x = some (.returnStmt expr) →
      (∀ e ∈ expr, Shaped t .expr e) → Shaped t .stmt x
  | throwStmt {x expr : NodeId} : t.kind? x = some (.throwStmt expr) → Shaped t .expr expr → Shaped t .stmt x
  | emptyStmt {x : NodeId} : t.kind? x = some .emptyStmt → Shaped t .stmt x

theorem AssignOp.isOperator_text (op : AssignOp) : IsOperator op.text := by cases op <;> decide

theorem BinaryOp.isOperator_text (op : BinaryOp) : IsOperator op.text := by cases op <;> decide

theorem UnaryOp.isOperator_text (op : UnaryOp) : IsOperator op.text := by cases op <;> decide

theorem Primitive.isIdentifier_text (p : Primitive) : isIdentifier p.text.toList = true := by cases p <;> decide

theorem UnaryOp.opens_text (op : UnaryOp) : Opens op.text.toList := by cases op <;> decide

theorem UnaryOp.isFinal_text {op : UnaryOp} (h : op.followsOperand = true) : isFinal op.text.toList = true := by
  cases op with
  | postInc => decide
  | postDec => decide
  | _ => cases h

namespace Script.Reads

variable {t : Tree} {first last : Token → Prop} {items mid rest : List Item}

/-! ## Pieces of scripts -/

/-- Items after a token that is settled. -/
theorem append_settled {first' : Token → Prop} (h : Reads t first Settled items) (h' : Reads t first' last rest) :
    Reads t first last (items ++ rest) :=
  h.append h' fun _ b ha _ => ha.fits b

/-- A symbol after an expression. -/
theorem append_symbol {s : Token} (h : Reads t first EndsExpr items) (hs : isSymbol s = true)
    (h' : Reads t (· = s) last rest) : Reads t first last (items ++ rest) :=
  h.append h' <| by
    rintro a _ ha rfl
    exact ha.fits hs

/-- A symbol after a type. -/
theorem append_type {s : Token} (h : Reads t first EndsType items) (hs : followsType s = true)
    (h' : Reads t (· = s) last rest) : Reads t first last (items ++ rest) :=
  h.append h' <| by
    rintro a _ ha rfl
    exact ha.fits hs

/-- A word after a type. -/
theorem append_type_word (h : Reads t first EndsType items) (h' : Reads t (isIdentifier · = true) last rest) :
    Reads t first last (items ++ rest) :=
  h.append h' fun _ _ ha hb => ha.fits (followsType_of_isIdentifier hb)

/-- A symbol that goes with nothing after it. -/
theorem settled {s : Token} (h : Reads t first (· = s) items) (hs : isFinal s = true) : Reads t first Settled items :=
  h.mono (fun _ ha => ha) <| by
    rintro _ rfl
    exact .inr hs

theorem ends (h : Reads t first Settled items) : Reads t first EndsExpr items := h.mono (fun _ h => h) fun _ h => .inl h

theorem append_nil (h : Reads t first last items) : Reads t first last (items ++ []) := by rwa [List.append_nil]

/-- An operator between two operands. -/
theorem operator {g : Glue} (hg : IsOperator g.token) (prev next : Option Pos) (h : Reads t first EndsExpr items)
    (h' : Reads t Opens last rest) : Reads t first last (items ++ (Script.glue g prev next ++ rest)) :=
  h.append_symbol hg.isSymbol <| (glue hg.single prev next).append h' <| by
    rintro _ b rfl hb
    exact hb.fits hg.isSymbol hg.ne_period

/-- A closing token after an expression. -/
theorem closing {text : String} (htext : Single text) (hs : isFinal text.toList = true) (stop : Option Pos)
    (h : Reads t first EndsExpr items) : Reads t first Settled (items ++ Script.closing text stop) := by
  have hsymbol : isSymbol text.toList = true := by
    simp only [isFinal, Bool.and_eq_true] at hs
    exact hs.1.1
  exact (h.append_symbol hsymbol (writeAt htext _)).settled hs

/-- What may stand between two tokens, and the second of them. -/
theorem between {s : Token} (h : Reads t first Settled items) (hmid : mid = [] ∨ Reads t Opens EndsExpr mid)
    (hs : isSymbol s = true) (hrest : Reads t (· = s) last rest) : Reads t first last (items ++ mid ++ rest) := by
  rcases hmid with rfl | hmid
  · rw [List.append_nil]
    exact h.append_settled hrest
  · exact (h.append_settled hmid).append_symbol hs hrest

theorem list_exprs {ids : List NodeId} (hids : ∀ id ∈ ids, Reads t Opens EndsExpr [.child id]) :
    Script.list t ids = [] ∨ Reads t Opens EndsExpr (Script.list t ids) := by
  cases ids with
  | nil => exact .inl rfl
  | cons id ids => exact .inr (list nofun (fun a ha => ha.fits (by decide)) hids)

theorem settled_of_bracket {c : Char} (hc : c ∈ brackets) : Settled [c] := by
  have hfinal : brackets.all (fun c => isFinal [c]) = true := by decide
  exact .inr (List.all_eq_true.1 hfinal c hc)

/-- Brackets in one stroke. -/
theorem write_brackets {text : String} (h : text.toList.all brackets.contains = true) (hne : text.toList ≠ []) :
    Reads t (fun a => ∃ c ∈ text.toList.head?, a = [c]) Settled (Script.write text) := by
  have htokens : tokens t (Script.write text) = text.toList.map ([·]) := by
    show tokensIn text.toList ++ [] ++ [] = _
    rw [List.append_nil, List.append_nil, tokensIn, if_pos h]
  have hsettled : ∀ c ∈ text.toList, Settled [c] := fun c hc =>
    settled_of_bracket (List.contains_iff_mem.1 (List.all_eq_true.1 h c hc))
  refine ⟨fun s hs text' htext => ?_, ?_, ?_, ?_⟩
  · cases List.mem_singleton.1 hs
    cases htext
    exact .inl h
  · rw [htokens, List.isChain_map]
    refine List.Pairwise.isChain (List.Pairwise.imp_of_mem ?_
      (List.pairwise_of_forall (R := fun _ _ => True) fun _ _ => trivial))
    exact fun hc _ _ => (hsettled _ hc).fits _
  · obtain ⟨c, cs, hcs⟩ := List.exists_cons_of_ne_nil hne
    rw [htokens, hcs]
    exact ⟨[c], rfl, c, rfl, rfl⟩
  · rw [htokens, List.getLast?_map, List.getLast?_eq_some_getLast hne]
    exact ⟨_, rfl, hsettled _ (List.getLast_mem hne)⟩

/-- The brackets of an array type, if it has any. -/
theorem append_dims (h : Reads t first EndsType items) (dims : Nat) :
    Reads t first EndsType (items ++ Script.write (String.join (List.replicate dims "[]"))) := by
  cases dims with
  | zero =>
    have htokens : tokens t (items ++ Script.write "") = tokens t items := by
      rw [tokens_append]
      exact List.append_nil _
    show Reads t first EndsType (items ++ Script.write "")
    refine h.of_tokens (fun s hs text htext => ?_) htokens
    rw [Tree.eventsOf_append, List.mem_append] at hs
    rcases hs with hs | hs
    · exact h.spelled s hs text htext
    · cases List.mem_singleton.1 hs
      cases htext
      exact .inl rfl
  | succ n =>
    generalize htext : String.join (List.replicate (n + 1) "[]") = text
    have hhead : text.toList.head? = some '[' := by
      have hbrackets : "[]".toList.head? = some '[' := by decide
      rw [← htext, List.replicate_succ, String.join_cons, String.toList_append, List.head?_append, hbrackets]
      rfl
    have hall : text.toList.all Lexing.brackets.contains = true := by
      have hbrackets : "[]".toList.all Lexing.brackets.contains = true := by decide
      rw [← htext, String.toList_join, List.all_flatMap, List.all_replicate, hbrackets]
      simp
    have hne : text.toList ≠ [] := fun hnil => by
      rw [hnil] at hhead
      cases hhead
    refine ((h.append_type (by decide : followsType ['['] = true) ((write_brackets hall hne).mono ?_ fun _ h => h)).mono
      (fun _ h => h) fun _ h => .inl h)
    rintro _ ⟨c, hc, rfl⟩
    rw [hhead] at hc
    cases hc
    rfl

/-- An opening parenthesis. -/
theorem open_paren (before : Bool) (prev next : Option Pos) :
    Reads t (· = "(".toList) Settled (Script.glue ⟨before, "(", false⟩ prev next) :=
  settled (glue (g := ⟨before, "(", false⟩) (by decide : Single "(") prev next) (by decide : isFinal "(".toList = true)

theorem args {ids : List NodeId} (callee stop : Option Pos) (hids : ∀ id ∈ ids, Reads t Opens EndsExpr [.child id]) :
    Reads t (· = "(".toList) Settled (Script.args t ids callee stop) := by
  cases ids with
  | nil =>
    refine goto_cons _ ((write_brackets (by decide) (by decide)).mono ?_ fun _ ha => ha)
    rintro _ ⟨c, hc, rfl⟩
    have hhead : "()".toList.head? = some '(' ∧ ['('] = "(".toList := by decide
    rw [hhead.1] at hc
    cases hc
    exact hhead.2
  | cons id ids =>
    have hclose : Reads t (· = ")".toList) (· = ")".toList) (Script.closing ")" stop) := writeAt (by decide) _
    exact ((open_paren ..).between (list_exprs hids) (by decide) hclose).settled (by decide)

theorem keyword_append {text : String} (present : Bool) (htext : isIdentifier text.toList = true)
    (h : Reads t (isIdentifier · = true) last items) :
    Reads t (isIdentifier · = true) last (keyword present text ++ items) := by
  cases present with
  | false => exact h
  | true =>
    refine ((write (single_of_isIdentifier htext)).mono ?_ ?_).append_settled h
    · rintro _ rfl
      exact htext
    · rintro _ rfl
      exact .inl htext

theorem modifiersThen_append {m : Modifiers} (hm : m.annotations = []) (next : Option Pos)
    (h : Reads t (isIdentifier · = true) last items) :
    Reads t (isIdentifier · = true) last (modifiersThen m next ++ items) := by
  have hsep : Reads t (isIdentifier · = true) last ((if hasModifiers m then sep next else []) ++ items) := by
    split
    · exact h.sep_append next
    · exact h
  have hkeywords := keyword_append m.isAbstract (by decide : isIdentifier "abstract".toList = true)
    (keyword_append m.isStatic (by decide : isIdentifier "static".toList = true)
      (keyword_append m.isFinal (by decide : isIdentifier "final".toList = true) hsep))
  have hvisibility : ∀ {rest : List Item}, Reads t (isIdentifier · = true) last rest →
      Reads t (isIdentifier · = true) last (visibility m.visibility ++ rest) := fun hrest => by
    cases m.visibility with
    | none => exact hrest
    | some v => exact keyword_append true (by cases v <;> decide) hrest
  have := hvisibility hkeywords
  unfold modifiersThen modifiers
  rw [hm]
  simpa using this

/-- The variables of a declaration. -/
theorem vars {d : VarsDecl} (hm : d.modifiers.annotations = []) (hne : d.vars ≠ [])
    (hty : Reads t (isIdentifier · = true) EndsType [.child d.ty])
    (hvars : ∀ v ∈ d.vars, Reads t (isIdentifier · = true) EndsExpr [.child v]) :
    Reads t (isIdentifier · = true) EndsExpr (Script.vars t d) := by
  unfold Script.vars
  refine modifiersThen_append hm _ ?_
  obtain ⟨v, vs, hvs⟩ := List.exists_cons_of_ne_nil hne
  have hlist : Reads t (isIdentifier · = true) EndsExpr (Script.list t d.vars) :=
    list hne (fun a ha => ha.fits (by decide)) hvars
  show Reads t _ _ ([Item.child d.ty] ++ _)
  refine hty.append_type_word ?_
  rw [hvs] at hlist ⊢
  exact hlist.sep_append _

end Script.Reads

namespace Tree

open Script.Reads

variable {t : Tree} {x : NodeId} {part : Part} {first last : Token → Prop}

/-- A node reads like its script. -/
theorem reads_node (hac : t.Acyclic) {k : Kind} (hkind : t.kind? x = some k)
    (h : ∀ parent loc, Reads t first last (Node.script t ⟨parent, loc, k⟩)) : Reads t first last [.child x] := by
  obtain ⟨⟨parent, loc, k'⟩, hnode, rfl⟩ := Option.map_eq_some_iff.1 hkind
  have hscript := h parent loc
  have hevents : t.eventsOf [.child x] =
      .stroke (.goto loc.start?) :: .enter x :: (t.eventsOf (Node.script t ⟨parent, loc, k'⟩) ++ [Event.leave x]) :=
    (List.append_nil _).trans (events_eq hac hnode)
  have htokens : tokens t [.child x] = tokens t (Node.script t ⟨parent, loc, k'⟩) := by
    unfold tokens
    rw [hevents, List.flatMap_cons, List.flatMap_cons, List.flatMap_append]
    exact List.append_nil _
  refine hscript.of_tokens (fun s hs text htext => ?_) htokens
  rw [hevents] at hs
  simp only [List.mem_cons, List.mem_append, Event.stroke.injEq, reduceCtorEq, List.not_mem_nil, or_false,
    false_or] at hs
  rcases hs with rfl | hs
  · cases htext
  · exact hscript.spelled s hs text htext

theorem opens_of_isIdentifier {a : Token} (h : isIdentifier a = true) : Opens a := by
  obtain - | ⟨c, cs⟩ := a
  · cases h
  exact ⟨c, rfl, .inl (isIdentChar_head h).1⟩

/-- A word of its own. -/
theorem reads_word {text : String} (h : isIdentifier text.toList = true) :
    Reads t (isIdentifier · = true) (isIdentifier · = true) (write text) :=
  (Reads.write (single_of_isIdentifier h)).mono (by rintro _ rfl; exact h) (by rintro _ rfl; exact h)

theorem reads_ident {name : Ident} (h : isIdentifier name.name.toList = true) :
    Reads t (isIdentifier · = true) (isIdentifier · = true) (ident name) := goto_cons _ (reads_word h)

/-- A member name after what it is a member of. -/
theorem reads_member {items : List Item} {name : Ident} (h : Reads t first EndsExpr items)
    (hname : isIdentifier name.name.toList = true) :
    Reads t first (isIdentifier · = true) (items ++ (period name.loc ++ ident name)) :=
  h.append_symbol (by decide) <| (Reads.writeAt (by decide : Single ".") _).append (reads_ident hname) <| by
    rintro _ b rfl hb
    exact fits_period hb

theorem reads_literal {text : String} (h : isLiteral text.toList = true) : Reads t Opens EndsExpr (write text) := by
  have hquoted : isQuoted text.toList = true → ∃ c cs, text.toList = c :: cs ∧ (c = '"' ∨ c = '\'') := fun h => by
    cases hcs : text.toList with
    | nil => rw [hcs] at h; cases h
    | cons c cs => rw [hcs] at h; exact ⟨c, cs, rfl, head_of_isQuoted h⟩
  unfold isLiteral at h
  rw [Bool.or_eq_true, Bool.or_eq_true] at h
  rcases h with (h | h) | h
  · exact (reads_word h).mono (fun _ => opens_of_isIdentifier) fun _ h => .inl (.inl h)
  · obtain ⟨c, hc, hident⟩ := exists_isIdentChar_of_isNumber h
    have hsingle : Single text := single_of_head (by rw [isToken, h, Bool.or_true]; rfl) ⟨c, hc, fun hbracket => by
      rw [not_isIdentChar_bracket c hbracket] at hident
      cases hident⟩
    refine (Reads.write hsingle).mono ?_ (by rintro _ rfl; exact .inr (.inl h))
    rintro _ rfl
    cases hcs : text.toList with
    | nil => rw [hcs] at h; cases h
    | cons c cs =>
      rw [hcs] at h
      refine ⟨c, rfl, (head_of_isNumber h).imp isIdentChar_of_isDigit ?_⟩
      rintro rfl
      decide
  · obtain ⟨c, cs, hcs, hc⟩ := hquoted h
    have hsingle : Single text := by
      refine single_of_head (by rw [isToken, h, Bool.or_true]; rfl) ⟨c, by rw [hcs]; exact List.mem_cons_self, ?_⟩
      rcases hc with rfl | rfl
      · decide
      · decide
    refine (Reads.write hsingle).mono ?_ (by rintro _ rfl; exact .inr (.inr h))
    rintro _ rfl
    rw [hcs]
    refine ⟨c, rfl, .inr ?_⟩
    rcases hc with rfl | rfl
    · decide
    · decide

/-- A keyword in front of an expression or a statement. -/
theorem reads_keyword {text : String} (h : isIdentifier text.toList = true) : Reads t Opens Settled (write text) :=
  (reads_word h).mono (fun _ => opens_of_isIdentifier) fun _ h => .inl h

theorem reads_open : Reads t Opens Settled (write "(") :=
  ((Reads.write (by decide)).settled (by decide)).mono (by rintro _ rfl; decide) fun _ h => h

/-- A condition in parentheses after its keyword. -/
theorem reads_guard {word : String} {cond : NodeId} (hword : isIdentifier word.toList = true) (prev next : Option Pos)
    (hcond : Reads t Opens EndsExpr [.child cond]) :
    Reads t Opens Settled
      (write word ++ Script.glue ⟨true, "(", false⟩ prev next ++ ([Item.child cond] ++ write ")")) := by
  have hclose := Reads.write (t := t) (by decide : Single ")")
  have hopen := (reads_keyword (t := t) hword).append_settled (open_paren true prev next)
  exact hopen.append_settled ((hcond.append_symbol (by decide) hclose).settled (by decide))

theorem reads_typeArgs {ids : List NodeId} (hne : ids ≠ [])
    (hids : ∀ id ∈ ids, Reads t (isIdentifier · = true) EndsType [.child id]) :
    Reads t (· = "<".toList) EndsType (write "<" ++ Script.list t ids ++ write ">") := by
  have hlist : Reads t (isIdentifier · = true) EndsType (Script.list t ids) :=
    Reads.list hne (fun a ha => ha.fits (by decide)) hids
  have hopen := (Reads.write (t := t) (by decide : Single "<")).append hlist <| by
    rintro _ b rfl hb
    exact (opens_of_isIdentifier hb).fits (by decide : isSymbol "<".toList = true) (by decide : "<".toList ≠ ['.'])
  refine (hopen.append_type (by decide) (Reads.write (by decide : Single ">"))).mono (fun _ h => h) ?_
  rintro _ rfl
  exact .inr (by decide)

/-- **The tokens of an expression tree fit one after the other.** -/
theorem Shaped.reads (hac : t.Acyclic) (h : t.Shaped part x) : Reads t part.first part.last [.child x] := by
  induction h with
  | @name x name hkind hname =>
    exact reads_node hac hkind fun parent loc =>
      (reads_word hname).mono (fun _ => opens_of_isIdentifier) fun _ h => .inl (.inl h)
  | @literal x l hkind hl => exact reads_node hac hkind fun parent loc => reads_literal hl
  | @this x hkind =>
    exact reads_node hac hkind fun parent loc =>
      (reads_word (by decide)).mono (fun _ => opens_of_isIdentifier) fun _ h => .inl (.inl h)
  | @access x scope member hkind hname _ ih =>
    refine reads_node hac hkind fun parent loc => ?_
    exact (reads_member ih hname).mono (fun _ h => h) fun _ h => .inl (.inl h)
  | @call x scope name args hkind hname _ _ ihscope ihargs =>
    refine reads_node hac hkind fun parent loc => ?_
    have hcall : ∀ {callee}, Reads t Opens (isIdentifier · = true) callee →
        Reads t Opens EndsExpr (callee ++ Script.args t args name.loc.stop? loc.stop?) := fun h =>
      ((h.mono (fun _ h => h) fun _ h => .inl h).append_settled (Reads.args _ _ ihargs)).mono (fun _ h => h)
        fun _ h => .inl h
    cases scope with
    | none => exact hcall ((reads_ident hname).mono (fun _ => opens_of_isIdentifier) fun _ h => h)
    | some scope => exact hcall (reads_member (ihscope scope rfl) hname)
  | @assign x target value op hkind _ _ ihtarget ihvalue =>
    exact reads_node hac hkind fun parent loc =>
      operator (g := .spaced op.text) op.isOperator_text _ _ ihtarget ihvalue
  | @binary x left right op hkind _ _ ihleft ihright =>
    exact reads_node hac hkind fun parent loc =>
      operator (g := .spaced op.text) op.isOperator_text _ _ ihleft ihright
  | @unary x expr op hkind _ ih =>
    refine reads_node hac hkind fun parent loc => ?_
    have hop := Reads.write (t := t) op.isOperator_text.single
    show Reads t Opens EndsExpr (if op.followsOperand then [Item.child expr] ++ write op.text
      else write op.text ++ [Item.child expr])
    split
    · rename_i hfollows
      refine (ih.append_symbol op.isOperator_text.isSymbol hop).mono (fun _ h => h) ?_
      rintro _ rfl
      exact .inl (.inr (UnaryOp.isFinal_text hfollows))
    · refine (hop.append ih ?_).mono ?_ fun _ h => h
      · rintro _ b rfl hb
        exact hb.fits op.isOperator_text.isSymbol op.isOperator_text.ne_period
      · rintro _ rfl
        exact op.opens_text
  | @newObject x ty args hkind _ _ ihty ihargs =>
    refine reads_node hac hkind fun parent loc => ?_
    have hnew : Reads t Opens Settled (write "new") := reads_keyword (by decide)
    have htype := hnew.append_settled (ihty.sep_append (t.start? ty))
    exact (htype.append_type (by decide) (Reads.args (t.stop? ty) loc.stop? ihargs)).ends
  | @paren x inner hkind _ ih =>
    refine reads_node hac hkind fun parent loc => ?_
    exact (reads_open.append_settled (ih.closing (by decide : Single ")") (by decide) loc.stop?)).ends
  | @lambda x body params isParenthesized part hkind hparams _ hpart _ ihparams ihbody =>
    refine reads_node hac hkind fun parent loc => ?_
    have hbody : Reads t Opens EndsExpr [.child body] := by
      rcases hpart with rfl | rfl
      · exact ihbody
      · exact ihbody.ends
    have hlist : params ≠ [] → Reads t (isIdentifier · = true) (isIdentifier · = true) (Script.list t params) :=
      fun hne => Reads.list hne (fun a ha => Settled.fits (.inl ha) _) ihparams
    have hhead : Reads t Opens Settled
        (if isParenthesized then write "(" ++ Script.list t params ++ write ")" else Script.list t params) := by
      split
      · have hclose : Reads t (· = ")".toList) Settled (write ")") := (Reads.write (by decide)).settled (by decide)
        cases params with
        | nil => exact reads_open.append_settled hclose
        | cons p ps =>
          have hopen := reads_open.append_settled ((hlist nofun).mono (fun _ h => h) fun _ h => (.inl h : Settled _))
          exact hopen.append_settled hclose
      · rename_i hnot
        exact (hlist (hparams.resolve_left hnot)).mono (fun _ => opens_of_isIdentifier) fun _ h => .inl h
    exact (hhead.append_settled (Reads.glue (g := .spaced "->") (by decide : Single "->") _ _)).append hbody <| by
      rintro _ b rfl -
      exact Settled.fits (.inr (by decide : isFinal "->".toList = true)) b
  | @conditional x cond yes no hkind _ _ _ ihcond ihyes ihno =>
    refine reads_node hac hkind fun parent loc => ?_
    have hquestion := Reads.glue (t := t) (g := .spaced "?") (by decide : Single "?") (t.stop? cond) (t.start? yes)
    have hcolon := Reads.glue (t := t) (g := .spaced ":") (by decide : Single ":") (t.stop? yes) (t.start? no)
    have hcond := (ihcond.append_symbol (by decide : isSymbol "?".toList = true) hquestion).settled (by decide)
    exact (hcond.append_settled (ihyes.append_symbol (by decide : isSymbol ":".toList = true) hcolon)).append ihno <| by
      rintro _ b rfl hb
      exact hb.fits (by decide : isSymbol ":".toList = true) (by decide : ":".toList ≠ ['.'])
  | @cast x ty expr hkind _ _ ihty ihexpr =>
    refine reads_node hac hkind fun parent loc => ?_
    have hclose : Reads t (· = ")".toList) Settled (write ")") := (Reads.write (by decide)).settled (by decide)
    have hty := reads_open.append_settled (ihty.append_type (by decide) hclose)
    exact hty.append_settled (ihexpr.sep_append _)
  | @index x array index hkind _ _ iharray ihindex =>
    refine reads_node hac hkind fun parent loc => ?_
    have hopen := Reads.glue (t := t) (g := ⟨false, "[", false⟩) (by decide : Single "[") (t.stop? array)
      (t.start? index)
    have harray := (iharray.append_symbol (by decide : isSymbol "[".toList = true) hopen).settled (by decide)
    exact (harray.append_settled (ihindex.closing (by decide : Single "]") (by decide) loc.stop?)).ends
  | @localVar x d hkind hm hne _ _ ihty ihvars =>
    exact reads_node hac hkind fun parent loc =>
      (Reads.vars hm hne ihty ihvars).mono (fun _ => opens_of_isIdentifier) fun _ h => h
  | @var x name init hkind hname _ ih =>
    refine reads_node hac hkind fun parent loc => ?_
    have hname : Reads t (isIdentifier · = true) EndsExpr (ident name) :=
      (reads_ident hname).mono (fun _ h => h) fun _ h => .inl (.inl h)
    cases init with
    | none => exact hname.append_nil
    | some init => exact operator (g := .spaced "=") (by decide : IsOperator "=") _ _ hname (ih init rfl)
  | @primitiveType x p hkind =>
    exact reads_node hac hkind fun parent loc =>
      (reads_word p.isIdentifier_text).mono (fun _ h => h) fun _ h => .inl (.inl h)
  | @voidType x hkind =>
    exact reads_node hac hkind fun parent loc => (reads_word (by decide)).mono (fun _ h => h) fun _ h => .inl (.inl h)
  | @classType x scope name args hkind hname _ _ ihscope ihargs =>
    refine reads_node hac hkind fun parent loc => ?_
    have hword := reads_word (t := t) hname
    have htype : ∀ {items}, Reads t (isIdentifier · = true) (isIdentifier · = true) items →
        Reads t (isIdentifier · = true) EndsType
          (items ++ if args.isEmpty then [] else write "<" ++ Script.list t args ++ write ">") := fun h => by
      have h := h.mono (fun _ h => h) fun _ h => (.inl h : Settled _)
      cases args with
      | nil => exact (h.mono (fun _ h => h) fun _ h => .inl h).append_nil
      | cons a as => exact h.append_settled (reads_typeArgs nofun ihargs)
    cases scope with
    | none => exact htype hword
    | some scope =>
      have hscope := (ihscope scope rfl).append_type (by decide) (Reads.write (by decide : Single "."))
      exact htype (hscope.append hword (by rintro _ b rfl hb; exact fits_period hb))
  | @arrayType x elem dims hkind _ ih =>
    exact reads_node hac hkind fun parent loc => append_dims ih dims
  | @param x d hkind hm hname _ ih =>
    refine reads_node hac hkind fun parent loc => ?_
    show Reads t _ _ (_ ++ _ ++ ident d.name)
    rw [List.append_assoc]
    refine modifiersThen_append hm _ ?_
    have hident := reads_ident (t := t) hname
    cases hty : d.ty with
    | none => exact hident
    | some ty =>
      have ih : Reads t (isIdentifier · = true) EndsType [.child ty] := ih ty hty
      show Reads t _ _ ([Item.child ty] ++ keyword d.isVarArgs "..." ++ sep d.name.loc.start? ++ ident d.name)
      rw [List.append_assoc]
      cases d.isVarArgs with
      | false => exact ih.append_nil.append_type_word (hident.sep_append _)
      | true =>
        have hdots := (Reads.write (t := t) (by decide : Single "...")).settled (by decide)
        exact (ih.append_type (by decide) hdots).append_settled (hident.sep_append _)
  | @block x stmts hkind _ ih =>
    refine reads_node hac hkind fun parent loc => ?_
    have hopen : Reads t Opens Settled (write "\x7b") :=
      ((Reads.write (by decide)).settled (by decide)).mono (by rintro _ rfl; decide) fun _ h => h
    have hclose := Reads.writeAt (t := t) (by decide : Single "\x7d") (closingPos "\x7d" loc.stop?)
    exact (hopen.append_separatedAll ih).append_settled ((hclose.settled (by decide)).sep_append _)
  | @exprStmt x expr hkind _ ih =>
    exact reads_node hac hkind fun parent loc => ih.closing (by decide : Single ";") (by decide) loc.stop?
  | @ifStmt x cond yes no hkind _ _ _ ihcond ihyes ihno =>
    refine reads_node hac hkind fun parent loc => ?_
    have hyes := (reads_guard (by decide : isIdentifier "if".toList = true) (keywordStop loc "if") (t.start? cond)
      ihcond).append_settled (ihyes.sep_append (t.start? yes))
    cases no with
    | none => exact hyes.append_nil
    | some no =>
      have helse := ((reads_keyword (by decide : isIdentifier "else".toList = true)).sep_append none).append_settled
        ((ihno no rfl).sep_append (t.start? no))
      exact hyes.append_settled helse
  | @whileStmt x cond body hkind _ _ ihcond ihbody =>
    exact reads_node hac hkind fun parent loc =>
      (reads_guard (by decide : isIdentifier "while".toList = true) _ _ ihcond).append_settled (ihbody.sep_append _)
  | @forStmt x body init update cond hkind _ _ _ _ ihinit ihcond ihupdate ihbody =>
    refine reads_node hac hkind fun parent loc => ?_
    have hsemi : Reads t (· = ";".toList) Settled (write ";") := (Reads.write (by decide)).settled (by decide)
    have hclose : Reads t (· = ")".toList) Settled (write ")") := (Reads.write (by decide)).settled (by decide)
    have hopen := (reads_keyword (t := t) (by decide : isIdentifier "for".toList = true)).append_settled
      (open_paren true (keywordStop loc "for") ((init.head?.or cond).bind t.start?))
    have hinit := hopen.between (list_exprs ihinit) (by decide) hsemi
    show Reads t Opens Settled (_ ++ _ ++ write ";" ++ _ ++ write ")" ++ separated t body)
    refine ((hinit.between ?_ (by decide) hsemi).between ?_ (by decide) hclose).append_settled (ihbody.sep_append _)
    · cases cond with
      | none => exact .inl rfl
      | some cond => exact .inr ((ihcond cond rfl).sep_append _)
    · cases update with
      | nil => exact .inl rfl
      | cons first rest => exact (list_exprs ihupdate).imp nofun (·.sep_append _)
  | @returnStmt x expr hkind _ ih =>
    refine reads_node hac hkind fun parent loc => ?_
    have hreturn := reads_keyword (t := t) (by decide : isIdentifier "return".toList = true)
    have hsemi := Reads.writeAt (t := t) (by decide : Single ";") (closingPos ";" loc.stop?)
    show Reads t Opens Settled (write "return" ++ _ ++ closing ";" loc.stop?)
    refine (hreturn.between ?_ (by decide) hsemi).settled (by decide)
    cases expr with
    | none => exact .inl rfl
    | some expr => exact .inr ((ih expr rfl).sep_append _)
  | @throwStmt x expr hkind _ ih =>
    refine reads_node hac hkind fun parent loc => ?_
    have hthrow := reads_keyword (t := t) (by decide : isIdentifier "throw".toList = true)
    exact (hthrow.append_settled (ih.sep_append (t.start? expr))).closing (by decide : Single ";") (by decide) loc.stop?
  | @emptyStmt x hkind =>
    refine reads_node hac hkind fun parent loc => ?_
    refine ((Reads.writeAt (by decide : Single ";") _).settled (by decide)).mono ?_ fun _ h => h
    rintro _ rfl
    exact (by decide : Opens ";".toList)

end Tree

/-! ## Reading the text back -/

namespace Lexing

open Mark

instance {R : Token → Token → Prop} [∀ a b, Decidable (R a b)] : DecidableRel (Touch R)
  | .token a, .token b => inferInstanceAs (Decidable (R a b))
  | .blank _, _ => isTrue trivial
  | .token _, .blank _ => isTrue trivial

instance (a b : Token) : Decidable (Closers a b) := inferInstanceAs (Decidable (_ ∧ _))

/-- **How a text of some marks is read back**, if `ts` are the tokens that were written. -/
structure Reread (text : List Char) (ms : List Mark) (ts : List Token) : Prop where
  /-- The text is that of the marks, and their tokens are the ones that were written. -/
  text_eq : textOf ms = text
  tokens_eq : tokens ms = ts
  /-- Closing brackets aside, the tokens are read back as they were written, unless two of them touch that clash. -/
  lex_iff : ms.IsChain (Touch fun a b => ¬ Closers a b) →
    (lex text = some ts ↔ ms.IsChain (Touch fun a b => clashes a b = false))
  /-- Of closing brackets some may be read together. -/
  closers : ms.IsChain (Touch fun a b => clashes a b = false) →
    ∃ ts', lex text = some ts' ∧ ts'.flatMap splitClosers = ts.flatMap splitClosers

theorem isChain_append_blanks {R : Token → Token → Prop} {ms : List Mark} (cs : List Char) :
    (ms ++ cs.map blank).IsChain (Touch R) ↔ ms.IsChain (Touch R) := by
  have hblanks : (cs.map blank).IsChain (Touch R) := isChain_touch (by rw [tokens_map_blank]; exact .nil)
  refine ⟨fun h => h.left_of_append, fun h => h.append hblanks fun m _ m' hm' => ?_⟩
  obtain ⟨c, -, rfl⟩ := List.mem_map.1 (List.mem_of_head? hm')
  cases m <;> trivial

/-- **Strokes whose tokens fit are read back.** Blanks may follow them. -/
theorem reread_run {es : List Event} (hspelled : ∀ s, .stroke s ∈ es → ∀ text ∈ s.text?, Spelled text)
    (hchain : (es.flatMap Event.tokens).IsChain Fits) (cs : List Char) (hcs : ∀ c ∈ cs, isBlank c = true) :
    Reread ((Pen.run {} es).out.toList ++ cs) (marks (Pen.pieces {} es) ++ cs.map blank) (es.flatMap Event.tokens) := by
  have hvalid : ∀ m ∈ marks (Pen.pieces {} es) ++ cs.map blank, m.IsValid := fun m hm => by
    rcases List.mem_append.1 hm with hm | hm
    · exact Pen.isValid_pieces {} hspelled m hm
    · obtain ⟨c, hc, rfl⟩ := List.mem_map.1 hm
      exact hcs c hc
  have htokens : tokens (marks (Pen.pieces {} es) ++ cs.map blank) = es.flatMap Event.tokens := by
    rw [Mark.tokens_append, tokens_map_blank, List.append_nil, Pen.tokens_pieces {} hspelled]
  have htext : textOf (marks (Pen.pieces {} es) ++ cs.map blank) = (Pen.run {} es).out.toList ++ cs := by
    rw [textOf_append, textOf_map_blank, textOf_marks, Pen.out_run, String.toList_append]
    rfl
  -- the pen keeps words apart, so what is left of the tokens that stick are those that clash and the closers
  have hfits : (marks (Pen.pieces {} es) ++ cs.map blank).IsChain
      (Touch fun a b => Sticks a b → clashes a b = true ∨ Closers a b) := by
    have hchain := isChain_touch (R := Fits) (htokens ▸ hchain)
    have hjoined := (isChain_append_blanks cs).2 (Pen.isChain_pieces (p := {}) es rfl)
    exact isChain_touch_mono (fun a b h hsticks => (h.1 hsticks).resolve_left h.2) (isChain_touch_and hchain hjoined)
  refine ⟨htext, htokens, fun hclosers => ?_, fun hclash => ?_⟩
  · rw [← htext, ← htokens]
    refine lex_eq_iff hvalid (isChain_touch_mono ?_ (isChain_touch_and hfits hclosers))
    exact fun a b h hsticks => (h.1 hsticks).resolve_right h.2
  · rw [← htext, ← htokens]
    refine exists_lex_closers hvalid (isChain_touch_mono ?_ (isChain_touch_and hfits hclash))
    refine fun a b h hsticks => (h.1 hsticks).resolve_left ?_
    rw [h.2]
    exact nofun

end Lexing

namespace Tree

open Mark

variable {t : Tree} {x : NodeId} {part : Part}

/-- The tokens that are written for a node and the nodes below it. -/
def tokens (t : Tree) (x : NodeId) : List Token := (t.events x).flatMap Event.tokens

/-- The tree is one expression, and nothing around it. -/
def IsExpression (t : Tree) (x : NodeId) : Prop :=
  t.kind? t.root = some (.unit { types := [x] }) ∧ ∃ part, t.Shaped part x

/-- The marks of the tree when it is printed. -/
def printedMarks (t : Tree) : List Mark :=
  let out := (Pen.run {} (t.events t.root)).out
  marks t.pieces ++ if out.isEmpty || out.toList.getLast? == some '\n' then [] else [.blank '\n']

/-- The marks of a node when it is rendered. -/
def renderedMarks (t : Tree) (x : NodeId) : List Mark := marks (Pen.pieces {} ((t.events x).map Event.unplaced))

theorem tokens_unplaced (es : List Event) : (es.map Event.unplaced).flatMap Event.tokens = es.flatMap Event.tokens := by
  rw [List.flatMap_map]
  refine List.flatMap_congr fun e _ => ?_
  match e with
  | .enter _ => rfl
  | .leave _ => rfl
  | .stroke s => cases s <;> rfl

theorem spelled_unplaced {es : List Event} (h : ∀ s, .stroke s ∈ es → ∀ text ∈ s.text?, Spelled text) :
    ∀ s, .stroke s ∈ es.map Event.unplaced → ∀ text ∈ s.text?, Spelled text := by
  intro s hs text htext
  obtain ⟨e, he, heq⟩ := List.mem_map.1 hs
  match e with
  | .stroke s' =>
    cases heq
    refine h s' he text ?_
    cases s' <;> exact htext

/-- The tokens of an expression are spelled out, and fit. -/
theorem Shaped.events (hac : t.Acyclic) (h : t.Shaped part x) :
    (∀ s, .stroke s ∈ t.events x → ∀ text ∈ s.text?, Spelled text) ∧ (t.tokens x).IsChain Fits := by
  have hreads := h.reads hac
  have hevents : t.eventsOf [.child x] = t.events x := List.append_nil _
  refine ⟨fun s hs => hreads.spelled s (hevents ▸ hs), ?_⟩
  have hchain := hreads.chain
  unfold Script.tokens at hchain
  rwa [hevents] at hchain

theorem IsExpression.events (hac : t.Acyclic) (h : t.IsExpression x) :
    (∀ s, .stroke s ∈ t.events t.root → ∀ text ∈ s.text?, Spelled text) ∧ (t.tokens t.root).IsChain Fits := by
  obtain ⟨hkind, part, hx⟩ := h
  have hreads : Reads t part.first part.last [.child t.root] := reads_node hac hkind fun _ _ => hx.reads hac
  have hevents : t.eventsOf [.child t.root] = t.events t.root := List.append_nil _
  refine ⟨fun s hs => hreads.spelled s (hevents ▸ hs), ?_⟩
  have hchain := hreads.chain
  unfold Script.tokens at hchain
  rwa [hevents] at hchain

/-- **An expression is read back token by token, printed or rendered, unless tokens touch that clash.** -/
theorem reread_expression (hac : t.Acyclic) :
    (∀ x, t.IsExpression x → Reread t.print.text.toList t.printedMarks (t.tokens t.root)) ∧
      ∀ part x, t.Shaped part x → Reread (t.render x).toList (t.renderedMarks x) (t.tokens x) := by
  constructor
  · intro x hx
    obtain ⟨hspelled, hchain⟩ := hx.events hac
    unfold print printedMarks pieces
    dsimp only
    split
    · have := reread_run hspelled hchain [] nofun
      rwa [List.append_nil] at this
    · rw [String.toList_append]
      exact reread_run hspelled hchain ['\n'] fun c hc => by rw [List.mem_singleton.1 hc]; rfl
  · intro part x hx
    obtain ⟨hspelled, hchain⟩ := hx.events hac
    have := reread_run (spelled_unplaced hspelled) (by rw [tokens_unplaced]; exact hchain) [] nofun
    rw [tokens_unplaced, List.append_nil] at this
    exact (List.append_nil (t.renderedMarks x)) ▸ this

/-- The tree of `a - -b`, without positions. -/
def difference : Tree :=
  { root := ⟨0⟩
    cells := #[
      some ⟨none, .synthetic, .unit { types := [⟨1⟩] }⟩,
      some ⟨some ⟨0⟩, .synthetic, .binary ⟨2⟩ .sub ⟨3⟩⟩,
      some ⟨some ⟨1⟩, .synthetic, .nameExpr "a"⟩,
      some ⟨some ⟨1⟩, .synthetic, .unary .neg ⟨4⟩⟩,
      some ⟨some ⟨3⟩, .synthetic, .nameExpr "b"⟩] }

theorem shaped_difference : difference.Shaped .expr ⟨1⟩ :=
  .binary rfl (.name rfl (by decide)) (.unary rfl (.name rfl (by decide)))

/-- The signs of `a - -b` do not touch, so it is read back. -/
theorem reread_expression_difference : difference.IsExpression ⟨1⟩ ∧ difference.print.text = "a - -b\n" ∧
    lex difference.print.text.toList = some (["a", "-", "-", "b"].map String.toList) := by
  have hproper : difference.Proper := by decide
  have hx : difference.IsExpression ⟨1⟩ := ⟨rfl, _, shaped_difference⟩
  refine ⟨hx, by decide, ?_⟩
  have hread := (reread_expression hproper.forest.acyclic).1 ⟨1⟩ hx
  have htokens : difference.tokens difference.root = ["a", "-", "-", "b"].map String.toList := by decide
  rw [← htokens]
  exact (hread.lex_iff (by decide)).2 (by decide)

/-- The tree of `- -x`, without positions. -/
def negation : Tree :=
  { root := ⟨0⟩
    cells := #[
      some ⟨none, .synthetic, .unit { types := [⟨1⟩] }⟩,
      some ⟨some ⟨0⟩, .synthetic, .unary .neg ⟨2⟩⟩,
      some ⟨some ⟨1⟩, .synthetic, .unary .neg ⟨3⟩⟩,
      some ⟨some ⟨2⟩, .synthetic, .nameExpr "x"⟩] }

/-- Two signs that follow each other are written as a decrement. -/
theorem misread_negation : negation.IsExpression ⟨1⟩ ∧ negation.print.text = "--x\n" ∧
    lex negation.print.text.toList ≠ some (negation.tokens negation.root) := by
  have htext : negation.print.text = "--x\n" := by decide
  have htokens : negation.tokens negation.root = ["-", "-", "x"].map String.toList := by decide
  refine ⟨⟨rfl, .expr, .unary rfl (.unary rfl (.name rfl (by decide)))⟩, htext, ?_⟩
  rw [htext, htokens, show "--x\n".toList = ['-'] ++ '-' :: ['x', '\n'] by decide]
  exact lex_ne_of_isToken nofun (by decide)

end Tree

end UniformAccess
