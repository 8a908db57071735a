import UniformAccess.Draft.Declaration
import UniformAccess.Draft.Expression
import UniformAccess.Draft.Header
import UniformAccess.Draft.Statement
import UniformAccess.Proofs.Tree.Graft
/-!
# What an author drafts

`Draft.Method t d` says that `d` is a draft that an author makes in `t`: one of the methods of drafting, used as it is
meant to be. A draft looks at where its children start and at where some of them stop (`Kind.stopSources`), and at
nothing else of the tree (`Method.congr`). So it stays the right draft while other nodes are added, and while nodes are
closed whose stop it has not looked at.
-/
namespace UniformAccess

/-- Whether an author may put the closing token of a node of this kind elsewhere. -/
def Kind.isClosable : Kind → Bool
  | call .. => true
  | newObject .. => true
  | paren .. => true
  | indexExpr .. => true
  | _ => false

/-- The children whose stop a draft of this kind looks at. -/
def Kind.stopSources : Kind → List NodeId
  | field d => [d.vars.getLast?.getD d.ty]
  | var _ init => init.toList
  | method d =>
    match d.body with
    | some body => [body]
    | none => d.params.getLast?.toList
  | constructorDecl d => [d.body]
  | initializer _ body => [body]
  | classType _ _ args => args.getLast?.toList
  | arrayType elem _ => [elem]
  | exprStmt expr => [expr]
  | localVar d => [d.vars.getLast?.getD d.ty]
  | ifStmt _ yes no => [no.getD yes]
  | whileStmt _ body => [body]
  | forStmt _ _ _ body => [body]
  | returnStmt expr => expr.toList
  | throwStmt expr => [expr]
  | fieldAccess scope _ => [scope]
  | call scope _ args => scope.toList ++ args.getLast?.toList
  | assign _ _ value => [value]
  | binary _ _ right => [right]
  | unary _ expr => [expr]
  | newObject ty args => [args.getLast?.getD ty]
  | paren inner => [inner]
  | lambda _ _ body => [body]
  | conditional _ _ no => [no]
  | cast _ expr => [expr]
  | indexExpr _ index => [index]
  | _ => []

theorem Kind.mem_children_of_mem_stopSources {k : Kind} {c : NodeId} (h : c ∈ k.stopSources) : c ∈ k.children := by
  have hlast : ∀ {ids : List NodeId}, c ∈ ids.getLast? → c ∈ ids := List.mem_of_getLast?
  have hlastD : ∀ {ids : List NodeId} {other : NodeId}, c = ids.getLast?.getD other → c = other ∨ c ∈ ids := by
    intro ids other hc
    cases hl : ids.getLast? with
    | none => exact .inl (by rw [hc, hl]; rfl)
    | some last => exact .inr (List.mem_of_getLast? (by rw [hc, hl]; rfl))
  cases k with
  | method d => cases hb : d.body <;> simp_all [stopSources, children, slots, Slot.children, Slot.ofOption]
  | ifStmt cond yes no => cases no <;> simp_all [stopSources, children, slots, Slot.children, Slot.ofOption]
  | call scope name args =>
    cases scope with
    | none => simp_all [stopSources, children, slots, Slot.children, Slot.ofOption]
    | some scope =>
      rcases List.mem_append.1 h with h | h
      · simp_all [children, slots, Slot.children, Slot.ofOption]
      · simp_all [children, slots, Slot.children, Slot.ofOption]
  | _ => simp_all [stopSources, children, slots, Slot.children, Slot.ofOption]

namespace Tree

variable {t t' : Tree} {x c : NodeId} {node : Node}

/-- **Where a declaration with modifiers begins**: with its first annotation, else with its first keyword, and without
either with what comes after the modifiers, which is at `next`. -/
def Leads (t : Tree) (m : Modifiers) (p : Pos) (next : Option Pos) : Prop :=
  match m.annotations with
  | first :: _ => t.start? first = some p
  | [] => m.hasKeyword = false → next = some p

end Tree

@[simp]
theorem Loc.start?_between (start stop : Option Pos) : (Loc.between start stop).start? = start := by
  cases start <;> cases stop <;> rfl

namespace Draft

variable {t t' : Tree} {d : Draft}

/-- The draft with its closing token at `close`, if that is given. -/
def closed (d : Draft) : Option Pos → Draft
  | none => d
  | some close => ⟨.between d.loc.start? (some (close.right 1)), d.kind⟩

@[simp]
theorem kind_closed (d : Draft) (close : Option Pos) : (d.closed close).kind = d.kind := by cases close <;> rfl

/-- Closing a draft twice is closing it where it was closed last. -/
theorem closed_closed (d : Draft) (close : Option Pos) (close' : Pos) :
    (d.closed close).closed (some close') = d.closed (some close') := by
  cases close with
  | none => rfl
  | some close =>
    show (⟨.between (Loc.between d.loc.start? _).start? _, _⟩ : Draft) = ⟨.between d.loc.start? _, _⟩
    cases d.loc.start? <;> rfl

/-- **The methods of drafting, as they are meant to be used.** A name that is all of a node is not empty, a generic type
has an argument, an operator stands on the side of its operand where it belongs, and a node whose first token is that of
a child or of a name begins where that begins. -/
inductive Method (t : Tree) : Draft → Prop
  | package (p : Pos) (path : String) : Method t (package p path)
  | importDecl (p : Pos) (decl : ImportDecl) : Method t (importDecl p decl)
  | annotationUse (p : Pos) (name : String) : Method t (annotationUse p name)
  | primitiveType (p : Pos) (primitive : Primitive) : Method t (primitiveType p primitive)
  | classType (p : Pos) {name : String} (hname : name ≠ "") : Method t (classType p name)
  | genericType (p : Pos) {name : String} {args : List NodeId} (hname : name ≠ "") (hargs : args ≠ []) :
      Method t (genericType p name args t)
  | arrayType (elem : NodeId) (dims : Nat) : Method t (arrayType elem dims t)
  | voidType (p : Pos) : Method t (voidType p)
  | nameExpr (p : Pos) {name : String} (hname : name ≠ "") : Method t (nameExpr p name)
  | thisExpr (p : Pos) : Method t (thisExpr p)
  | literal (p : Pos) {value : Literal} (hvalue : value.text ≠ "") : Method t (literal p value)
  | fieldAccess (scope : NodeId) (member : String) : Method t (fieldAccess scope member t)
  | methodCall (scope : NodeId) (name : String) (args : List NodeId) (close : Option Pos) :
      Method t ((methodCall scope name args t).closed close)
  | call (p : Pos) {name : String} (args : List NodeId) (close : Option Pos) (hname : name ≠ "") :
      Method t ((call p name args t).closed close)
  | assign (target : NodeId) (op : AssignOp) (value : NodeId) : Method t (assign target op value t)
  | binary (left : NodeId) (op : BinaryOp) (right : NodeId) : Method t (binary left op right t)
  | prefixOp (p : Pos) {op : UnaryOp} (expr : NodeId) (hop : op.followsOperand = false) :
      Method t (prefixOp p op expr t)
  | postfixOp (expr : NodeId) {op : UnaryOp} (hop : op.followsOperand = true) : Method t (postfixOp expr op t)
  | paren (p : Pos) (inner : NodeId) (close : Option Pos) : Method t ((paren p inner t).closed close)
  | newObject (p : Pos) (ty : NodeId) (args : List NodeId) (close : Option Pos) :
      Method t ((newObject p ty args t).closed close)
  | cast (p : Pos) (ty expr : NodeId) : Method t (cast p ty expr t)
  | conditional (cond yes no : NodeId) : Method t (conditional cond yes no t)
  | indexExpr (array index : NodeId) (close : Option Pos) : Method t ((indexExpr array index t).closed close)
  | lambda (p : Pos) (params : List NodeId) (isParenthesized : Bool) (body : NodeId)
      (hfirst : isParenthesized = false → params.head?.bind t.start? = some p) :
      Method t (lambda p params isParenthesized body t)
  | field (p : Pos) {modifiers : Modifiers} {ty : NodeId} (vars : List NodeId)
      (hfirst : t.Leads modifiers p (t.start? ty)) : Method t (field p modifiers ty vars t)
  | param (ty : NodeId) (p : Pos) (name : String) : Method t (param ty (.placed p name) t)
  | lambdaParam (p : Pos) {name : String} (hname : name ≠ "") : Method t (lambdaParam (.placed p name))
  | method (p : Pos) {modifiers : Modifiers} {result : NodeId} (q : Pos) (name : String) (params : List NodeId)
      (body : Option NodeId) (hfirst : t.Leads modifiers p (t.start? result)) :
      Method t (method p modifiers result (.placed q name) params body t)
  | constructorDecl (p : Pos) {modifiers : Modifiers} {q : Pos} {name : String} (params : List NodeId) (body : NodeId)
      (hname : name ≠ "") (hfirst : t.Leads modifiers p (some q)) :
      Method t (constructorDecl p modifiers (.placed q name) params body t)
  | initializer (p : Pos) (isStatic : Bool) (body : NodeId) (hfirst : isStatic = false → t.start? body = some p) :
      Method t (initializer p isStatic body t)
  | classDecl (p : Pos) {modifiers : Modifiers} (name : Ident) (lbrace : Pos) (members : List NodeId) (close : Pos)
      (hfirst : t.Leads modifiers p (some p)) : Method t (classDecl p modifiers name lbrace members close)
  | property (p : Pos) {decl : PropertyDecl} (close : Pos) (hfirst : t.Leads decl.modifiers p (t.start? decl.ty)) :
      Method t (property p decl close)
  | exprStmt (expr : NodeId) : Method t (exprStmt expr t)
  | localVar (ty : NodeId) (vars : List NodeId) : Method t (localVar ty vars t)
  | var (p : Pos) {name : String} (init : Option NodeId) (hname : name ≠ "") : Method t (var (.placed p name) init t)
  | block (opening : Pos) (stmts : List NodeId) (close : Pos) : Method t (block opening stmts close)
  | returnStmt (p : Pos) (expr : Option NodeId) : Method t (returnStmt p expr t)
  | throwStmt (p : Pos) (expr : NodeId) : Method t (throwStmt p expr t)
  | ifStmt (p : Pos) (cond yes : NodeId) (no : Option NodeId) : Method t (ifStmt p cond yes no t)
  | whileStmt (p : Pos) (cond body : NodeId) : Method t (whileStmt p cond body t)
  | forStmt (p : Pos) (init : List NodeId) (cond : Option NodeId) (update : List NodeId) (body : NodeId) :
      Method t (forStmt p init cond update body t)
  | emptyStmt (p : Pos) : Method t (emptyStmt p)

/-! ## What a draft looks at -/

section

variable {ids : List NodeId} {otherwise otherwise' : Option Pos}

theorem stopOfLast_congr (h : ∀ c ∈ ids.getLast?, t'.stop? c = t.stop? c)
    (ho : ids.getLast? = none → otherwise' = otherwise) :
    t'.stopOfLast ids otherwise' = t.stopOfLast ids otherwise := by
  unfold Tree.stopOfLast
  cases hl : ids.getLast? with
  | none => exact ho hl
  | some last => exact h last hl

theorem stopOfBracketed_congr (h : ∀ c ∈ ids.getLast?, t'.stop? c = t.stop? c)
    (ho : ids.getLast? = none → otherwise' = otherwise) :
    t'.stopOfBracketed ids otherwise' = t.stopOfBracketed ids otherwise := by
  unfold Tree.stopOfBracketed
  rw [stopOfLast_congr h fun hl => by rw [ho hl]]

end

theorem memberAfter_congr {scope : NodeId} (h : t'.stop? scope = t.stop? scope) (name : String) :
    memberAfter t' scope name = memberAfter t scope name := by
  unfold memberAfter
  rw [h]

theorem leads_congr {m : Modifiers} {p : Pos} {next next' : Option Pos} (hl : t.Leads m p next)
    (h : ∀ c ∈ m.annotations, t'.start? c = t.start? c) (hn : next' = next) : t'.Leads m p next' := by
  unfold Tree.Leads at *
  split
  · rename_i first rest hm
    rw [hm] at hl
    rw [h first (by rw [hm]; exact List.mem_cons_self)]
    exact hl
  · rename_i hm
    rw [hm] at hl
    rw [hn]
    exact hl

/-- **A draft is the same in every tree where what it looks at is.** -/
theorem Method.congr (h : Method t d) (hstart : ∀ c ∈ d.kind.children, t'.start? c = t.start? c)
    (hstop : ∀ c ∈ d.kind.stopSources, t'.stop? c = t.stop? c) : Method t' d := by
  have of_eq : ∀ {d'}, Method t' d' → d' = d → Method t' d := fun hd' heq => heq ▸ hd'
  cases h with
  | package p path => exact .package p path
  | importDecl p decl => exact .importDecl p decl
  | annotationUse p name => exact .annotationUse p name
  | primitiveType p primitive => exact .primitiveType p primitive
  | classType p hname => exact .classType p hname
  | voidType p => exact .voidType p
  | nameExpr p hname => exact .nameExpr p hname
  | thisExpr p => exact .thisExpr p
  | literal p hvalue => exact .literal p hvalue
  | lambdaParam p hname => exact .lambdaParam p hname
  | block opening stmts close => exact .block opening stmts close
  | emptyStmt p => exact .emptyStmt p
  | classDecl p name lbrace members close hfirst =>
    refine .classDecl p name lbrace members close (leads_congr hfirst (fun c hc => hstart c ?_) rfl)
    simp [Draft.classDecl, Kind.children, Kind.slots, Slot.children, hc]
  | property p close hfirst =>
    refine .property p close (leads_congr hfirst (fun c hc => hstart c ?_) (hstart _ ?_))
    · simp [Draft.property, Kind.children, Kind.slots, Slot.children, hc]
    · simp [Draft.property, Kind.children, Kind.slots, Slot.children]
  | binary left op right =>
    refine of_eq (.binary left op right) ?_
    simp_all [Draft.binary, Kind.children, Kind.slots, Slot.children, Kind.stopSources]
  | arrayType elem dims =>
    refine of_eq (.arrayType elem dims) ?_
    simp_all [Draft.arrayType, Kind.children, Kind.slots, Slot.children, Kind.stopSources]
  | assign target op value =>
    refine of_eq (.assign target op value) ?_
    simp_all [Draft.assign, Kind.children, Kind.slots, Slot.children, Kind.stopSources]
  | prefixOp p expr hop =>
    refine of_eq (.prefixOp p expr hop) ?_
    simp_all [Draft.prefixOp, Kind.children, Kind.slots, Slot.children, Kind.stopSources]
  | postfixOp expr hop =>
    refine of_eq (.postfixOp expr hop) ?_
    simp_all [Draft.postfixOp, Kind.children, Kind.slots, Slot.children, Kind.stopSources]
  | paren p inner close =>
    refine of_eq (.paren p inner close) ?_
    simp_all [Draft.paren, Kind.children, Kind.slots, Slot.children, Kind.stopSources]
  | cast p ty expr =>
    refine of_eq (.cast p ty expr) ?_
    simp_all [Draft.cast, Kind.children, Kind.slots, Slot.children, Kind.stopSources]
  | conditional cond yes no =>
    refine of_eq (.conditional cond yes no) ?_
    simp_all [Draft.conditional, Kind.children, Kind.slots, Slot.children, Kind.stopSources]
  | indexExpr array index close =>
    refine of_eq (.indexExpr array index close) ?_
    simp_all [Draft.indexExpr, Kind.children, Kind.slots, Slot.children, Kind.stopSources]
  | exprStmt expr =>
    refine of_eq (.exprStmt expr) ?_
    simp_all [Draft.exprStmt, Kind.children, Kind.slots, Slot.children, Kind.stopSources]
  | throwStmt p expr =>
    refine of_eq (.throwStmt p expr) ?_
    simp_all [Draft.throwStmt, Kind.children, Kind.slots, Slot.children, Kind.stopSources]
  | whileStmt p cond body =>
    refine of_eq (.whileStmt p cond body) ?_
    simp_all [Draft.whileStmt, Kind.children, Kind.slots, Slot.children, Kind.stopSources]
  | forStmt p init cond update body =>
    refine of_eq (.forStmt p init cond update body) ?_
    simp_all [Draft.forStmt, Kind.children, Kind.slots, Slot.children, Kind.stopSources]
  | param ty p name =>
    refine of_eq (.param ty p name) ?_
    simp_all [Draft.param, Kind.children, Kind.slots, Slot.children, Slot.ofOption]
  | ifStmt p cond yes no =>
    refine of_eq (.ifStmt p cond yes no) ?_
    simp_all [Draft.ifStmt, Kind.children, Kind.slots, Slot.children, Kind.stopSources]
  | fieldAccess scope member =>
    refine of_eq (.fieldAccess scope member) ?_
    unfold Draft.fieldAccess
    rw [memberAfter_congr (hstop scope List.mem_cons_self), hstart scope List.mem_cons_self]
  | constructorDecl p params body hname hfirst =>
    refine of_eq (.constructorDecl p params body hname (leads_congr hfirst (fun c hc => hstart c ?_) rfl)) ?_
    · simp [Draft.constructorDecl, Kind.children, Kind.slots, Slot.children, hc]
    · unfold Draft.constructorDecl
      rw [hstop body List.mem_cons_self]
  | initializer p isStatic body hfirst =>
    have hbody := hstart body List.mem_cons_self
    refine of_eq (.initializer p isStatic body fun hs => hbody.trans (hfirst hs)) ?_
    unfold Draft.initializer
    rw [hstop body List.mem_cons_self]
  | genericType p hname hargs =>
    refine of_eq (.genericType p hname hargs) ?_
    unfold Draft.genericType
    rw [stopOfBracketed_congr (fun c hc => hstop c (Option.mem_toList.2 hc)) fun _ => rfl]
  | methodCall scope name args close =>
    refine of_eq (.methodCall scope name args close) ?_
    simp only [kind_closed, Draft.methodCall, Kind.stopSources, Option.toList_some, List.singleton_append,
      List.mem_cons, Option.mem_toList] at hstart hstop ⊢
    rw [memberAfter_congr (hstop scope (.inl rfl)), stopOfBracketed_congr (fun c hc => hstop c (.inr hc)) fun _ => rfl,
      hstart scope List.mem_cons_self]
  | call p args close hname =>
    refine of_eq (.call p args close hname) ?_
    have hlast : ∀ c ∈ args.getLast?, t'.stop? c = t.stop? c := fun c hc =>
      hstop c (by simpa [Draft.call, Kind.stopSources] using hc)
    simp only [Draft.call, stopOfBracketed_congr hlast fun _ => rfl]
  | newObject p ty args close =>
    refine of_eq (.newObject p ty args close) ?_
    unfold Draft.newObject
    rw [stopOfBracketed_congr (fun c hc => hstop c ?_) fun hl => hstop ty ?_]
    · simp [Draft.newObject, Kind.stopSources, Option.mem_def.1 hc]
    · simp [Draft.newObject, Kind.stopSources, hl]
  | lambda p params isParenthesized body hfirst =>
    refine of_eq (.lambda p params isParenthesized body fun hp => ?_) ?_
    · rw [← hfirst hp]
      cases params with
      | nil => rfl
      | cons first rest => exact hstart first List.mem_cons_self
    · unfold Draft.lambda
      rw [hstop body List.mem_cons_self]
  | @field p modifiers ty vars hfirst =>
    have hty : t'.start? ty = t.start? ty :=
      hstart ty (by simp [Draft.field, Kind.children, Kind.slots, Slot.children])
    refine of_eq (.field p vars (leads_congr hfirst (fun c hc => hstart c ?_) hty)) ?_
    · simp [Draft.field, Kind.children, Kind.slots, Slot.children, hc]
    · unfold Draft.field
      rw [stopOfLast_congr (fun c hc => hstop c ?_) fun hl => hstop ty ?_]
      · simp [Draft.field, Kind.stopSources, Option.mem_def.1 hc]
      · simp [Draft.field, Kind.stopSources, hl]
  | localVar ty vars =>
    refine of_eq (.localVar ty vars) ?_
    unfold Draft.localVar
    rw [hstart ty List.mem_cons_self, stopOfLast_congr (fun c hc => hstop c ?_) fun hl => hstop ty ?_]
    · simp [Draft.localVar, Kind.stopSources, Option.mem_def.1 hc]
    · simp [Draft.localVar, Kind.stopSources, hl]
  | @method p modifiers result q name params body hfirst =>
    have hresult : t'.start? result = t.start? result :=
      hstart result (by simp [Draft.method, Kind.children, Kind.slots, Slot.children])
    refine of_eq (.method p q name params body (leads_congr hfirst (fun c hc => hstart c ?_) hresult)) ?_
    · simp [Draft.method, Kind.children, Kind.slots, Slot.children, hc]
    · cases body with
      | some body => simp only [Draft.method, hstop body List.mem_cons_self]
      | none =>
        have hlast : ∀ c ∈ params.getLast?, t'.stop? c = t.stop? c := fun c hc => hstop c (Option.mem_toList.2 hc)
        simp only [Draft.method, stopOfLast_congr hlast fun _ => rfl]
  | var p init hname =>
    refine of_eq (.var p init hname) ?_
    cases init with
    | none => rfl
    | some init =>
      simp only [Draft.var, hstop init List.mem_cons_self]
  | returnStmt p expr =>
    refine of_eq (.returnStmt p expr) ?_
    cases expr with
    | none => rfl
    | some expr =>
      simp only [Draft.returnStmt, hstop expr List.mem_cons_self]

theorem Method.congr_loc (h : Method t d) (hloc : ∀ c ∈ d.kind.children, t'.loc? c = t.loc? c) : Method t' d :=
  h.congr (fun c hc => Tree.start?_congr (hloc c hc)) fun c hc =>
    Tree.stop?_congr (hloc c (Kind.mem_children_of_mem_stopSources hc))

/-! ## Starts and closing tokens -/

theorem start?_closed (d : Draft) (close : Option Pos) : (d.closed close).loc.start? = d.loc.start? := by
  cases close with
  | none => rfl
  | some close => exact Loc.start?_between _ _

theorem Method.close (h : Method t d) (hk : d.kind.isClosable = true) (close : Pos) :
    Method t (d.closed (some close)) := by
  cases h with
  | methodCall scope name args close' =>
    rw [closed_closed]
    exact .methodCall scope name args _
  | call p args close' hname =>
    rw [closed_closed]
    exact .call p args _ hname
  | paren p inner close' =>
    rw [closed_closed]
    exact .paren p inner _
  | newObject p ty args close' =>
    rw [closed_closed]
    exact .newObject p ty args _
  | indexExpr array index close' =>
    rw [closed_closed]
    exact .indexExpr array index _
  | _ => cases hk

/-- A draft has a start if its children do. -/
theorem Method.exists_start (h : Method t d) (hc : ∀ c ∈ d.kind.children, ∃ p, t.start? c = some p) :
    ∃ p, d.loc.start? = some p := by
  cases h with
  | arrayType elem | fieldAccess elem | assign elem | binary elem | postfixOp elem | conditional elem | param elem
  | exprStmt elem | localVar elem =>
    obtain ⟨p, hp⟩ := hc elem List.mem_cons_self
    exact ⟨p, (Loc.start?_between _ _).trans hp⟩
  | methodCall elem | indexExpr elem =>
    obtain ⟨p, hp⟩ := hc elem (by rw [kind_closed]; exact List.mem_cons_self)
    exact ⟨p, ((start?_closed _ _).trans (Loc.start?_between _ _)).trans hp⟩
  | call p | paren p | newObject p => exact ⟨p, (start?_closed _ _).trans (Loc.start?_between _ _)⟩
  | var p => exact ⟨p, Loc.start?_between _ _⟩
  | genericType p | prefixOp p | cast p | lambda p | field p | method p | constructorDecl p | initializer p
  | returnStmt p | throwStmt p | ifStmt p | whileStmt p | forStmt p => exact ⟨p, Loc.start?_between _ _⟩
  | package p | importDecl p | annotationUse p | primitiveType p | classType p | voidType p | nameExpr p | thisExpr p
  | literal p | lambdaParam p | classDecl p | property p | block p | emptyStmt p => exact ⟨p, rfl⟩

end Draft

end UniformAccess
