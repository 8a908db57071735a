import UniformAccess.Proofs.Draft.Drafting
import UniformAccess.Proofs.Printing.Landing
import UniformAccess.Proofs.Printing.Mapped
/-!
# What is drafted is printed where it says

Each method of drafting works out where its node stops from the widths of tokens and from its children, and the printer
comes to the same place by writing them (`Draft.Method.lands`). So if no target is missed on the way, a tree that an
author has built is printed where its nodes say (`Drafted.print_at_locations`).

That takes targets that are on the page. A pair of brackets is written from the position of the second one, so brackets
that close in the first column have a target in column zero, and come out a column late (`drafted_off_page`).
-/
namespace UniformAccess

namespace Script

variable {t : Tree} {ids : List NodeId} {a b : Pos} {c : NodeId} {s : Span} {m : Modifiers}

theorem stops_separated (h : t.LandsAt c s) : Stops t (separated t c) s.stop := (Stops.child h).append _

theorem stops_listAfter (h : t.LandsAt c s) : ∀ (prev : NodeId) (ids : List NodeId), ids.getLast? = some c →
    Stops t (listAfter t prev ids) s.stop
  | _, [], hl => by cases hl
  | prev, [id], hl => by
    cases hl
    exact (Stops.child h).append _
  | prev, id :: id' :: ids, hl => by
    rw [List.getLast?_cons_cons] at hl
    exact ((stops_listAfter h id (id' :: ids) hl).cons _).append _

theorem stops_list (h : t.LandsAt c s) (hl : ids.getLast? = some c) : Stops t (list t ids) s.stop := by
  match ids, hl with
  | [id], hl =>
    cases hl
    exact Stops.child h
  | id :: id' :: ids, hl =>
    rw [List.getLast?_cons_cons] at hl
    exact (stops_listAfter h id (id' :: ids) hl).cons _

theorem stops_args (ids : List NodeId) (callee : Option Pos) (b : Pos) : Stops t (args t ids callee (some b)) b := by
  cases ids with
  | nil => exact .closing "()" b
  | cons first rest => exact (Stops.closing ")" b).append _

theorem stops_closingBrace (b : Pos) : Stops t (closingBrace (some b)) b := (Stops.closing _ b).append _

/-- Modifiers begin a declaration, or there are none. -/
theorem begins_modifiers {next : Option Pos} (hl : t.Leads m a next) (hm : ∀ c ∈ m.annotations, ∃ s, t.LandsAt c s) :
    Begins t (modifiers m) a ∨ modifiers m = [] ∧ hasModifiers m = false ∧ next = some a := by
  unfold Tree.Leads at hl
  cases hann : m.annotations with
  | cons first rest =>
    rw [hann] at hl
    obtain ⟨s, hs⟩ := hm first (by rw [hann]; exact List.mem_cons_self)
    obtain rfl : s.start = a := Option.some.inj (hs.start_eq.symm.trans hl)
    refine .inl ?_
    unfold modifiers
    rw [hann]
    exact Begins.child hs _
  | nil =>
    rw [hann] at hl
    obtain ⟨annotations, visibility, isStatic, isFinal, isAbstract⟩ := m
    obtain rfl : annotations = [] := hann
    match visibility, isAbstract, isStatic, isFinal with
    | some v, _, _, _ => exact .inl (Begins.write (by cases v <;> decide) _)
    | none, true, _, _ => exact .inl (Begins.write (by decide) _)
    | none, false, true, _ => exact .inl (Begins.write (by decide) _)
    | none, false, false, true => exact .inl (Begins.write (by decide) _)
    | none, false, false, false => exact .inr ⟨rfl, rfl, hl rfl⟩

theorem begins_modifiersThen {next next' : Option Pos} {items : List Item} (hl : t.Leads m a next)
    (hm : ∀ c ∈ m.annotations, ∃ s, t.LandsAt c s) (h : next = some a → Begins t items a) :
    Begins t (modifiersThen m next' ++ items) a := by
  unfold modifiersThen
  rcases begins_modifiers hl hm with hb | ⟨hnil, hnone, hnext⟩
  · exact (hb.append _).append _
  · rw [hnil, hnone]
    exact h hnext

end Script

namespace Draft

open Script

variable {t : Tree} {d : Draft} {a b p : Pos} {s : Span} {k : Kind} {ids : List NodeId}

/-- **The draft is written at its location.** -/
def Lands (t : Tree) (d : Draft) : Prop :=
  ∀ parent, ∃ s, d.loc = .span s ∧ Script.Lands t (Node.script t ⟨parent, d.loc, d.kind⟩) s.start s.stop

/-! ## Ways to land -/

/-- A draft between two positions lands if its script begins at the one and stops at the other. -/
theorem landed {start stop : Option Pos} (hstart : start = some a) (hstop : stop = some b)
    (hbegins : ∀ parent, Begins t (Node.script t ⟨parent, .span ⟨a, b⟩, k⟩) a)
    (hstops : ∀ parent, Stops t (Node.script t ⟨parent, .span ⟨a, b⟩, k⟩) b) : Lands t ⟨.between start stop, k⟩ := by
  subst hstart hstop
  exact fun parent => ⟨⟨a, b⟩, rfl, (hbegins parent).lands (hstops parent)⟩

/-- A draft with a closing token stops where that stops, wherever it is. -/
theorem landed_closed {start stop close : Option Pos} (hstart : start = some a) (hstop : ∃ b, stop = some b)
    (hbegins : ∀ parent b, Begins t (Node.script t ⟨parent, .span ⟨a, b⟩, k⟩) a)
    (hstops : ∀ parent b, Stops t (Node.script t ⟨parent, .span ⟨a, b⟩, k⟩) b) :
    Lands t (closed ⟨.between start stop, k⟩ close) := by
  obtain ⟨b, hstop⟩ := hstop
  subst hstart hstop
  intro parent
  cases close with
  | none => exact ⟨⟨a, b⟩, rfl, (hbegins parent b).lands (hstops parent b)⟩
  | some close => exact ⟨⟨a, close.right 1⟩, rfl, (hbegins parent _).lands (hstops parent _)⟩

/-- A draft that is a single text lands if it is as wide as the text. -/
theorem landed_text {text : String} {n : Nat} (hne : text ≠ "") (hlen : text.length = n)
    (h : ∀ parent, Node.script t ⟨parent, .span (.ofLength p n), k⟩ = write text) : Lands t (ofLength p n k) := by
  intro parent
  refine ⟨.ofLength p n, rfl, ?_⟩
  show Script.Lands t (Node.script t ⟨parent, .span (.ofLength p n), k⟩) p (p.right n)
  rw [h parent, ← hlen]
  exact .write hne

/-! ## Widths -/

theorem length_brackets (dims : Nat) : (String.join (List.replicate dims "[]")).length = 2 * dims := by
  induction dims with
  | zero => rfl
  | succ n ih =>
    have hlen : "[]".length = 2 := by decide
    rw [List.replicate_succ, String.join_cons, String.length_append, ih, hlen]
    omega

theorem head_brackets (dims : Nat) :
    (String.join (List.replicate dims "[]")).toList.head?.any isIdentChar = false := by
  cases dims with
  | zero => rfl
  | succ n =>
    have hhead : "[]".toList.head? = some '[' := by decide
    rw [List.replicate_succ, String.join_cons, String.toList_append, List.head?_append, hhead]
    exact (by decide : isIdentChar '[' = false)

theorem closingPos_right (text : String) (p : Pos) : closingPos text (some (p.right text.length)) = some p :=
  congrArg some (Pos.left_right p text.length)

theorem memberAfter_eq {scope : NodeId} (h : t.LandsAt scope s) (name : String) :
    memberAfter t scope name = .placed (s.stop.right 1) name := by
  unfold memberAfter
  rw [h.stop_eq]

/-- The last of some nodes, if there is one, and where it stops. -/
theorem stopOfLast_eq (h : ∀ c ∈ ids, ∃ s, t.LandsAt c s) (otherwise : Option Pos) :
    ids = [] ∧ t.stopOfLast ids otherwise = otherwise ∨
      ∃ last s, ids.getLast? = some last ∧ t.LandsAt last s ∧ t.stopOfLast ids otherwise = some s.stop := by
  unfold Tree.stopOfLast
  cases hl : ids.getLast? with
  | none => exact .inl ⟨List.getLast?_eq_none_iff.1 hl, rfl⟩
  | some last =>
    obtain ⟨s, hs⟩ := h last (List.mem_of_getLast? hl)
    exact .inr ⟨last, s, rfl, hs, hs.stop_eq⟩

theorem exists_stopOfLast (h : ∀ c ∈ ids, ∃ s, t.LandsAt c s) (otherwise : Pos) :
    ∃ b, t.stopOfLast ids (some otherwise) = some b := by
  rcases stopOfLast_eq h (some otherwise) with ⟨-, hstop⟩ | ⟨last, s, -, -, hstop⟩
  · exact ⟨_, hstop⟩
  · exact ⟨_, hstop⟩

theorem exists_stopOfBracketed (h : ∀ c ∈ ids, ∃ s, t.LandsAt c s) (opening : Pos) :
    ∃ b, t.stopOfBracketed ids (some opening) = some b := by
  obtain ⟨b, hb⟩ := exists_stopOfLast h (opening.right 1)
  exact ⟨b.right 1, congrArg (Option.map fun q : Pos => q.right 1) hb⟩

/-- Variables stop with the last of them, or with their type. -/
theorem stops_vars {v : VarsDecl} (hty : t.LandsAt v.ty s) (hvars : ∀ c ∈ v.vars, ∃ s, t.LandsAt c s) :
    ∃ b, t.stopOfLast v.vars (t.stop? v.ty) = some b ∧ Stops t (vars t v) b := by
  rcases stopOfLast_eq hvars (t.stop? v.ty) with ⟨hnil, hstop⟩ | ⟨last, s', hlast, hs, hstop⟩
  · refine ⟨s.stop, hstop.trans hty.stop_eq, ?_⟩
    unfold vars
    rw [hnil]
    exact (Stops.child hty).append _
  · refine ⟨s'.stop, hstop, ?_⟩
    unfold vars
    split
    · rename_i hnil
      rw [hnil] at hlast
      cases hlast
    · exact (((stops_list hs hlast).append _).cons _).append _

/-! ## Types and expressions -/

theorem lands_genericType {name : String} (hname : name ≠ "") (hids : ids ≠ []) (h : ∀ c ∈ ids, ∃ s, t.LandsAt c s) :
    Lands t (genericType p name ids t) := by
  rcases stopOfLast_eq h (some ((p.right name.length).right 1)) with ⟨hnil, -⟩ | ⟨last, s, hlast, hs, hstop⟩
  · exact absurd hnil hids
  · refine landed (b := s.stop.right 1) rfl (congrArg _ hstop) (fun _ => (Begins.write hname _).append _) fun _ => ?_
    simp only [Node.script]
    rw [if_neg (by simpa using hids)]
    exact (((stops_list hs hlast).append _).write (by decide)).append _

theorem lands_prefixOp {op : UnaryOp} {expr : NodeId} (hop : op.followsOperand = false) (h : t.LandsAt expr s) :
    Lands t (prefixOp p op expr t) := by
  have hscript : ∀ parent loc, Node.script t ⟨parent, loc, .unary op expr⟩ = write op.text ++ [Item.child expr] :=
    fun parent loc => by simp [Node.script, hop]
  refine landed rfl h.stop_eq (fun _ => ?_) fun _ => ?_
  · rw [hscript]
    exact Begins.write (by cases op <;> decide) _
  · rw [hscript]
    exact (Stops.child h).append _

theorem lands_postfixOp {op : UnaryOp} {expr : NodeId} (hop : op.followsOperand = true) (h : t.LandsAt expr s) :
    Lands t (postfixOp expr op t) := by
  have hscript : ∀ parent loc, Node.script t ⟨parent, loc, .unary op expr⟩ = [Item.child expr] ++ write op.text :=
    fun parent loc => by simp [Node.script, hop]
  refine landed h.start_eq (congrArg _ h.stop_eq) (fun _ => ?_) fun _ => ?_
  · rw [hscript]
    exact Begins.child h _
  · rw [hscript]
    exact (Stops.child h).write (by cases op <;> decide)

theorem lands_methodCall {scope : NodeId} (hscope : t.LandsAt scope s) (name : String)
    (h : ∀ c ∈ ids, ∃ s, t.LandsAt c s) (close : Option Pos) :
    Lands t ((methodCall scope name ids t).closed close) := by
  simp only [methodCall, memberAfter_eq hscope]
  exact landed_closed hscope.start_eq (exists_stopOfBracketed h _)
    (fun _ _ => ((Begins.child hscope _).append _).append _) fun _ b => (stops_args ids _ b).append _

theorem lands_lambda {isParenthesized : Bool} {body : NodeId}
    (hfirst : isParenthesized = false → ids.head?.bind t.start? = some p) (hids : ∀ c ∈ ids, ∃ s, t.LandsAt c s)
    (hbody : t.LandsAt body s) : Lands t (lambda p ids isParenthesized body t) := by
  refine landed rfl hbody.stop_eq (fun _ => ?_) fun _ => (Stops.child hbody).append _
  cases isParenthesized with
  | true => exact Begins.write (by decide) _
  | false =>
    match ids, hfirst rfl with
    | first :: rest, hp =>
      obtain ⟨f, hf⟩ := hids first List.mem_cons_self
      obtain rfl : f.start = p := Option.some.inj (hf.start_eq.symm.trans hp)
      exact Begins.child hf _

/-! ## Declarations -/

section

variable {modifiers : Modifiers} (hm : ∀ c ∈ modifiers.annotations, ∃ s, t.LandsAt c s)
include hm

theorem lands_field {ty : NodeId} (hfirst : t.Leads modifiers p (t.start? ty)) (hty : t.LandsAt ty s)
    (h : ∀ c ∈ ids, ∃ s, t.LandsAt c s) : Lands t (field p modifiers ty ids t) := by
  obtain ⟨b, hb, -⟩ := stops_vars (v := { modifiers, ty, vars := ids }) hty h
  refine landed rfl (congrArg _ hb) (fun _ => Begins.append ?_ _) fun _ => (Stops.closing ";" _).append _
  refine begins_modifiersThen hfirst hm fun hp => ?_
  obtain rfl : s.start = p := Option.some.inj (hty.start_eq.symm.trans hp)
  exact Begins.child hty _

theorem lands_method {result : NodeId} {body : Option NodeId} (hfirst : t.Leads modifiers p (t.start? result))
    (hresult : t.LandsAt result s) (q : Pos) (name : String) (hids : ∀ c ∈ ids, ∃ s, t.LandsAt c s)
    (hbody : ∀ c ∈ body, ∃ s, t.LandsAt c s) : Lands t (method p modifiers result (.placed q name) ids body t) := by
  have hbegins : ∀ parent b, Begins t (Node.script t ⟨parent, .span ⟨p, b⟩,
      .method { modifiers, result, name := .placed q name, params := ids, body }⟩) p := fun parent b => by
    rcases begins_modifiers hfirst hm with hb | ⟨hnil, hnone, hp⟩
    · simp only [Node.script, List.append_assoc]
      exact hb.append _
    · obtain rfl : s.start = p := Option.some.inj (hresult.start_eq.symm.trans hp)
      simp only [Node.script, hnil, hnone, List.append_assoc]
      exact Begins.child hresult _
  cases body with
  | some body =>
    obtain ⟨s, hs⟩ := hbody body rfl
    exact landed rfl hs.stop_eq (fun parent => hbegins parent _) fun _ => (stops_separated hs).append _
  | none =>
    obtain ⟨b, hb⟩ := exists_stopOfLast hids ((q.right name.length).right 1)
    exact landed rfl (congrArg (Option.map (·.right 2)) hb) (fun parent => hbegins parent _) fun _ =>
      (Stops.closing ";" _).append _

theorem lands_constructorDecl {q : Pos} {name : String} {body : NodeId} (hname : name ≠ "")
    (hfirst : t.Leads modifiers p (some q)) (ids : List NodeId) (hbody : t.LandsAt body s) :
    Lands t (constructorDecl p modifiers (.placed q name) ids body t) := by
  refine landed rfl hbody.stop_eq (fun _ => ?_) fun _ => (stops_separated hbody).append _
  refine Begins.append (Begins.append (Begins.append ?_ _) _) _
  refine begins_modifiersThen hfirst hm fun hp => ?_
  obtain rfl : q = p := Option.some.inj hp
  exact Begins.writeAt hname

theorem lands_classDecl (hfirst : t.Leads modifiers p (some p)) (name : Ident) (lbrace : Pos) (ids : List NodeId)
    (close : Pos) : Lands t (classDecl p modifiers name lbrace ids close) := by
  refine landed rfl rfl (fun _ => ?_) fun _ => (stops_closingBrace _).append _
  simp only [Node.script, List.append_assoc]
  have hword : "class" ≠ "" := by decide
  exact begins_modifiersThen hfirst hm fun _ => Begins.write hword _

end

theorem lands_property {decl : PropertyDecl} (hm : ∀ c ∈ decl.modifiers.annotations, ∃ s, t.LandsAt c s)
    (hfirst : t.Leads decl.modifiers p (t.start? decl.ty)) (hty : t.LandsAt decl.ty s) (close : Pos) :
    Lands t (property p decl close) := by
  refine landed rfl rfl (fun _ => ?_) fun _ => (stops_closingBrace _).append _
  simp only [Node.script, List.append_assoc]
  refine begins_modifiersThen hfirst hm fun hp => ?_
  obtain rfl : s.start = p := Option.some.inj (hty.start_eq.symm.trans hp)
  exact Begins.child hty _

theorem lands_initializer {isStatic : Bool} {body : NodeId} (hfirst : isStatic = false → t.start? body = some p)
    (hbody : t.LandsAt body s) : Lands t (initializer p isStatic body t) := by
  cases isStatic with
  | true =>
    exact landed rfl hbody.stop_eq (fun _ => Begins.write (by decide) _) fun _ => (stops_separated hbody).append _
  | false =>
    obtain rfl : s.start = p := Option.some.inj (hbody.start_eq.symm.trans (hfirst rfl))
    exact landed rfl hbody.stop_eq (fun _ => Begins.child hbody _) fun _ => Stops.child hbody

theorem lands_var {name : String} {init : Option NodeId} (hname : name ≠ "") (hinit : ∀ c ∈ init, ∃ s, t.LandsAt c s) :
    Lands t (var (.placed p name) init t) := by
  cases init with
  | none => exact landed rfl rfl (fun _ => Begins.writeAt hname) fun _ => Stops.writeAt name p
  | some init =>
    obtain ⟨s, hs⟩ := hinit init rfl
    exact landed rfl hs.stop_eq (fun _ => (Begins.writeAt hname).append _) fun _ => ((Stops.child hs).append _).append _

/-! ## Statements -/

theorem lands_returnStmt {expr : Option NodeId} (hexpr : ∀ c ∈ expr, ∃ s, t.LandsAt c s) :
    Lands t (returnStmt p expr t) := by
  cases expr with
  | none => exact landed rfl rfl (fun _ => Begins.write (by decide) _) fun _ => (Stops.closing ";" _).append _
  | some expr =>
    obtain ⟨s, hs⟩ := hexpr expr rfl
    exact landed rfl (congrArg _ hs.stop_eq) (fun _ => Begins.write (by decide) _) fun _ =>
      (Stops.closing ";" _).append _

theorem lands_ifStmt {yes : NodeId} {no : Option NodeId} (cond : NodeId) (hyes : t.LandsAt yes s)
    (hno : ∀ c ∈ no, ∃ s, t.LandsAt c s) : Lands t (ifStmt p cond yes no t) := by
  cases no with
  | none =>
    refine landed rfl hyes.stop_eq (fun _ => Begins.write (by decide) _) fun _ => ?_
    simp only [Node.script, List.append_nil]
    exact (stops_separated hyes).append _
  | some no =>
    obtain ⟨s, hs⟩ := hno no rfl
    exact landed rfl hs.stop_eq (fun _ => Begins.write (by decide) _) fun _ => ((stops_separated hs).append _).append _

theorem lands_emptyStmt (p : Pos) : Lands t (emptyStmt p) := by
  refine landed rfl rfl (fun _ => ?_) fun _ => Stops.closing ";" _
  show Begins t (writeAt ";" (closingPos ";" (some (p.right 1)))) p
  rw [show (1 : Nat) = ";".length by decide, closingPos_right]
  exact Begins.writeAt (by decide)

/-! ## All methods -/

/-- **Whatever an author drafts is written at its location**, if the children are. -/
theorem Method.lands (h : Method t d) (hc : ∀ c ∈ d.kind.children, ∃ s, t.LandsAt c s) : Lands t d := by
  have hone : ∀ {c}, .one c ∈ d.kind.slots → ∃ s, t.LandsAt c s := fun hslot =>
    hc _ (List.mem_flatMap.2 ⟨_, hslot, List.mem_singleton_self _⟩)
  have hmany : ∀ {ids}, .many ids ∈ d.kind.slots → ∀ c ∈ ids, ∃ s, t.LandsAt c s := fun hslot c h =>
    hc c (List.mem_flatMap.2 ⟨_, hslot, h⟩)
  cases h with
  | package p path => exact landed rfl rfl (fun _ => Begins.write (by simp) _) fun _ => (Stops.closing ";" _).append _
  | importDecl p decl =>
    exact landed rfl rfl (fun _ => Begins.write (by decide) _) fun _ => (Stops.closing ";" _).append _
  | annotationUse p name =>
    have hlen : ("@" ++ name).length = name.length + 1 := by
      rw [String.length_append, Nat.add_comm]
      rfl
    exact landed_text (by simp) hlen fun _ => rfl
  | primitiveType p primitive => exact landed_text (by cases primitive <;> decide) rfl fun _ => rfl
  | classType p hname => exact landed_text hname rfl fun _ => rfl
  | genericType p hname hargs => exact lands_genericType hname hargs (hmany (by simp [Draft.genericType, Kind.slots]))
  | arrayType elem dims =>
    obtain ⟨s, hs⟩ := hone (c := elem) List.mem_cons_self
    refine landed hs.start_eq (congrArg _ hs.stop_eq) (fun _ => Begins.child hs _) fun _ => ?_
    rw [← length_brackets dims]
    exact (Stops.child hs).write (head_brackets dims)
  | voidType p => exact landed_text (by decide) rfl fun _ => rfl
  | nameExpr p hname => exact landed_text hname rfl fun _ => rfl
  | thisExpr p => exact landed_text (by decide) rfl fun _ => rfl
  | literal p hvalue => exact landed_text hvalue rfl fun _ => rfl
  | fieldAccess scope member =>
    obtain ⟨s, hs⟩ := hone (c := scope) List.mem_cons_self
    simp only [Draft.fieldAccess, memberAfter_eq hs]
    exact landed hs.start_eq rfl (fun _ => Begins.child hs _) fun _ => (Stops.writeAt member _).append _
  | methodCall scope name args close =>
    obtain ⟨s, hs⟩ := hone (c := scope) (by simp [Draft.methodCall, Kind.slots, Slot.ofOption])
    exact lands_methodCall hs name (hmany (by simp [Draft.methodCall, Kind.slots])) close
  | call p args close hname =>
    exact landed_closed rfl (exists_stopOfBracketed (hmany (by simp [Draft.call, Kind.slots])) _)
      (fun _ _ => (Begins.writeAt hname).append _) fun _ b => (stops_args args _ b).append _
  | assign target op value =>
    obtain ⟨l, hl⟩ := hone (c := target) List.mem_cons_self
    obtain ⟨r, hr⟩ := hone (c := value) (by simp [Draft.assign, Kind.slots])
    exact landed hl.start_eq hr.stop_eq (fun _ => Begins.child hl _) fun _ => (Stops.child hr).append _
  | binary left op right =>
    obtain ⟨l, hl⟩ := hone (c := left) List.mem_cons_self
    obtain ⟨r, hr⟩ := hone (c := right) (by simp [Draft.binary, Kind.slots])
    exact landed hl.start_eq hr.stop_eq (fun _ => Begins.child hl _) fun _ => (Stops.child hr).append _
  | prefixOp p expr hop =>
    obtain ⟨s, hs⟩ := hone (c := expr) List.mem_cons_self
    exact lands_prefixOp hop hs
  | postfixOp expr hop =>
    obtain ⟨s, hs⟩ := hone (c := expr) List.mem_cons_self
    exact lands_postfixOp hop hs
  | paren p inner close =>
    obtain ⟨s, hs⟩ := hone (c := inner) (by simp [Draft.paren, Kind.slots])
    exact landed_closed rfl ⟨_, congrArg _ hs.stop_eq⟩ (fun _ _ => Begins.write (by decide) _) fun _ b =>
      ((Stops.closing ")" b).cons _).cons _
  | newObject p ty args close =>
    obtain ⟨s, hs⟩ := hone (c := ty) (by simp [Draft.newObject, Kind.slots])
    have hstop : ∃ b, t.stopOfBracketed args (t.stop? ty) = some b := by
      rw [hs.stop_eq]
      exact exists_stopOfBracketed (hmany (by simp [Draft.newObject, Kind.slots])) s.stop
    exact landed_closed rfl hstop (fun _ _ => Begins.write (by decide) _) fun _ b => (stops_args args _ b).append _
  | cast p ty expr =>
    obtain ⟨s, hs⟩ := hone (c := expr) (by simp [Draft.cast, Kind.slots])
    exact landed rfl hs.stop_eq (fun _ => Begins.write (by decide) _) fun _ => (stops_separated hs).append _
  | conditional cond yes no =>
    obtain ⟨l, hl⟩ := hone (c := cond) List.mem_cons_self
    obtain ⟨r, hr⟩ := hone (c := no) (by simp [Draft.conditional, Kind.slots])
    exact landed hl.start_eq hr.stop_eq (fun _ => Begins.child hl _) fun _ => (Stops.child hr).append _
  | indexExpr array index close =>
    obtain ⟨l, hl⟩ := hone (c := array) (by simp [Draft.indexExpr, Kind.slots])
    obtain ⟨r, hr⟩ := hone (c := index) (by simp [Draft.indexExpr, Kind.slots])
    exact landed_closed hl.start_eq ⟨_, congrArg _ hr.stop_eq⟩ (fun _ _ => Begins.child hl _) fun _ b =>
      ((Stops.closing "]" b).cons _).append _
  | lambda p params isParenthesized body hfirst =>
    obtain ⟨s, hs⟩ := hone (c := body) (by simp [Draft.lambda, Kind.slots])
    exact lands_lambda hfirst (hmany (by simp [Draft.lambda, Kind.slots])) hs
  | @field p modifiers ty vars hfirst =>
    obtain ⟨s, hs⟩ := hone (c := ty) (by simp [Draft.field, Kind.slots])
    exact lands_field (hmany (by simp [Draft.field, Kind.slots])) hfirst hs (hmany (by simp [Draft.field, Kind.slots]))
  | param ty p name =>
    obtain ⟨s, hs⟩ := hone (c := ty) (by simp [Draft.param, Kind.slots, Slot.ofOption])
    exact landed hs.start_eq rfl (fun _ => Begins.child hs _) fun _ => (Stops.writeAt name p).append _
  | @lambdaParam p name hname =>
    exact landed rfl rfl (fun _ => Begins.writeAt hname) fun _ => (Stops.writeAt name p).append _
  | @method p modifiers result q name params body hfirst =>
    obtain ⟨s, hs⟩ := hone (c := result) (by simp [Draft.method, Kind.slots])
    exact lands_method (hmany (by simp [Draft.method, Kind.slots])) hfirst hs q name
      (hmany (by simp [Draft.method, Kind.slots])) fun c h =>
        hone (by simp [Draft.method, Kind.slots, Slot.ofOption, Option.mem_def.1 h])
  | @constructorDecl p modifiers q name params body hname hfirst =>
    obtain ⟨s, hs⟩ := hone (c := body) (by simp [Draft.constructorDecl, Kind.slots])
    exact lands_constructorDecl (hmany (by simp [Draft.constructorDecl, Kind.slots])) hname hfirst params hs
  | initializer p isStatic body hfirst =>
    obtain ⟨s, hs⟩ := hone (c := body) List.mem_cons_self
    exact lands_initializer hfirst hs
  | classDecl p name lbrace members close hfirst =>
    exact lands_classDecl (hmany (by simp [Draft.classDecl, Kind.slots])) hfirst name lbrace members close
  | @property p decl close hfirst =>
    obtain ⟨s, hs⟩ := hone (c := decl.ty) (by simp [Draft.property, Kind.slots])
    exact lands_property (hmany (by simp [Draft.property, Kind.slots])) hfirst hs close
  | exprStmt expr =>
    obtain ⟨s, hs⟩ := hone (c := expr) List.mem_cons_self
    exact landed hs.start_eq (congrArg _ hs.stop_eq) (fun _ => Begins.child hs _) fun _ => (Stops.closing ";" _).cons _
  | localVar ty vars =>
    obtain ⟨s, hs⟩ := hone (c := ty) (by simp [Draft.localVar, Kind.slots])
    obtain ⟨b, hb, hstops⟩ := stops_vars (v := { ty, vars }) hs (hmany (by simp [Draft.localVar, Kind.slots]))
    exact landed hs.start_eq hb (fun _ => Begins.child hs _) fun _ => hstops
  | var p init hname =>
    exact lands_var hname fun c h => hone (by simp [Draft.var, Kind.slots, Slot.ofOption, Option.mem_def.1 h])
  | block opening stmts close =>
    exact landed rfl rfl (fun _ => Begins.write (by decide) _) fun _ => (stops_closingBrace _).append _
  | returnStmt p expr =>
    exact lands_returnStmt fun c h => hone (by simp [Draft.returnStmt, Kind.slots, Slot.ofOption, Option.mem_def.1 h])
  | throwStmt p expr =>
    obtain ⟨s, hs⟩ := hone (c := expr) List.mem_cons_self
    exact landed rfl (congrArg _ hs.stop_eq) (fun _ => Begins.write (by decide) _) fun _ =>
      (Stops.closing ";" _).append _
  | ifStmt p cond yes no =>
    obtain ⟨s, hs⟩ := hone (c := yes) (by simp [Draft.ifStmt, Kind.slots])
    exact lands_ifStmt cond hs fun c h => hone (by simp [Draft.ifStmt, Kind.slots, Slot.ofOption, Option.mem_def.1 h])
  | whileStmt p cond body =>
    obtain ⟨s, hs⟩ := hone (c := body) (by simp [Draft.whileStmt, Kind.slots])
    exact landed rfl hs.stop_eq (fun _ => Begins.write (by decide) _) fun _ => (stops_separated hs).append _
  | forStmt p init cond update body =>
    obtain ⟨s, hs⟩ := hone (c := body) (by simp [Draft.forStmt, Kind.slots])
    exact landed rfl hs.stop_eq (fun _ => Begins.write (by decide) _) fun _ => (stops_separated hs).append _
  | emptyStmt p => exact lands_emptyStmt p

end Draft

namespace Tree

open Pen

variable {t : Tree} {x : NodeId} {node : Node}

/-! ## The whole tree -/

/-- **Every node that an author has built is written at its location.** -/
theorem Drafted.lands (h : t.Drafted) (hnode : t.get? x = some node) (hne : x ≠ t.root) :
    ∃ s, node.loc = .span s ∧ t.LandsAt x s := by
  have hf := h.proper.forest
  -- from below: the nodes that a node holds are written before it is
  refine hf.acyclic.induction (P := fun x => ∀ node, t.get? x = some node → x ≠ t.root →
    ∃ s, node.loc = .span s ∧ t.LandsAt x s) (fun x ih node hnode hne => ?_) x node hnode hne
  have hchildren : ∀ c ∈ node.kind.children, ∃ s, t.LandsAt c s := fun c hc => by
    have hc : c ∈ t.children x := by
      rw [children_of_get? hnode]
      exact hc
    obtain ⟨n, hn⟩ := contains_iff.1 (hf.contains_child hc)
    obtain ⟨s, -, hs⟩ := ih c (.single hc) n hn fun heq => hf.free x c hc (heq ▸ List.mem_cons_self)
    exact ⟨s, hs⟩
  obtain ⟨s, hs, hscript⟩ := (h.tidy x node hnode hne).lands hchildren node.parent
  exact ⟨s, hs, .of_script hf.acyclic hnode hs hscript⟩

/-- **What an author has built is printed where it says**, every node below the root from its start to its stop, if no
target is missed and all are on the page. -/
theorem Drafted.print_at_locations (h : t.Drafted) (hsmooth : Smooth {} false (t.events t.root))
    (hpage : OnPage (t.events t.root)) (hnode : t.get? x = some node) (hne : x ≠ t.root) :
    ∃ s, node.loc = .span s ∧ t.print.layout.get? x = some s := by
  have hp := h.proper
  obtain ⟨s, hs, hlands⟩ := h.lands hnode hne
  obtain ⟨front, back, hL⟩ := exists_events_eq hp.forest.acyclic (hp.reached x (contains_iff.2 ⟨node, hnode⟩))
  refine ⟨s, hs, ?_⟩
  rw [hL] at hsmooth hpage
  obtain ⟨placed, hsmooth⟩ := hsmooth.append.1.append.2
  have hink : Piece.inkAt (after front).pos ((after front).pieces (t.events x)) = some s.start :=
    hlands.ink _ placed hsmooth hpage.left.right
  have hstop : (after (front ++ t.events x)).pos = s.stop := by
    rw [after_append]
    exact hlands.stop _ placed hsmooth hpage.left.right
  rw [layout_get? hp hnode hL, hink, hstop]
  rfl

theorem unseen_iff {id : NodeId} : (∀ y ∈ t.ids, ∀ k ∈ t.kind? y, id ∉ k.stopSources) ↔
    ∀ y k, t.kind? y = some k → id ∉ k.stopSources :=
  ⟨fun h y k hk => h y (mem_ids_of_contains (contains_of_kind? hk)) k hk, fun h y _ k hk => h y k hk⟩

/-- A class with a field over two lines: `int x = f(` and `a );`. -/
def fieldOverLines : Tree :=
  { cells := #[
      some { loc := .synthetic, kind := .unit { types := [⟨6⟩] } },
      some { parent := some ⟨5⟩, loc := .span ⟨⟨2, 3⟩, ⟨2, 6⟩⟩, kind := .primitiveType .int },
      some { parent := some ⟨3⟩, loc := .span ⟨⟨3, 5⟩, ⟨3, 6⟩⟩, kind := .nameExpr "a" },
      some { parent := some ⟨4⟩, loc := .span ⟨⟨2, 11⟩, ⟨3, 8⟩⟩, kind := .call none (.placed ⟨2, 11⟩ "f") [⟨2⟩] },
      some { parent := some ⟨5⟩, loc := .span ⟨⟨2, 7⟩, ⟨3, 8⟩⟩, kind := .var (.placed ⟨2, 7⟩ "x") (some ⟨3⟩) },
      some { parent := some ⟨6⟩, loc := .span ⟨⟨2, 3⟩, ⟨3, 9⟩⟩, kind := .field { ty := ⟨1⟩, vars := [⟨4⟩] } },
      some
        { parent := some ⟨0⟩, loc := .span ⟨⟨1, 1⟩, ⟨4, 2⟩⟩
          kind := .classDecl { name := .placed ⟨1, 7⟩ "A", lbrace := .point ⟨1, 9⟩, members := [⟨5⟩] } }]
    root := ⟨0⟩ }

theorem drafted_fieldOverLines : fieldOverLines.Drafted := by
  have h₁ : Drafting _ [⟨1⟩] := .place .empty (.primitiveType ⟨2, 3⟩ .int) (.refl _)
  have h₂ : Drafting _ [⟨2⟩, ⟨1⟩] := .place h₁ (.nameExpr ⟨3, 5⟩ (show "a" ≠ "" by decide)) (.refl _)
  have h₃ : Drafting _ [⟨3⟩, ⟨1⟩] :=
    .place h₂ (.call ⟨2, 11⟩ [⟨2⟩] none (show "f" ≠ "" by decide)) (.refl _)
  have h₄ := h₃.close (k := .call none (.placed ⟨2, 11⟩ "f") [⟨2⟩]) rfl rfl
    (unseen_iff.1 (by decide : ∀ y ∈ Tree.ids _, ∀ k ∈ Tree.kind? _ y, (⟨3⟩ : NodeId) ∉ k.stopSources)) ⟨3, 7⟩
  have h₅ : Drafting _ [⟨4⟩, ⟨1⟩] := .place h₄ (.var ⟨2, 7⟩ (some ⟨3⟩) (show "x" ≠ "" by decide)) (by decide)
  have h₆ : Drafting _ [⟨5⟩] :=
    .place h₅ (.field ⟨2, 3⟩ [⟨4⟩] (show Leads _ {} ⟨2, 3⟩ (start? _ ⟨1⟩) from fun _ => rfl)) (by decide)
  have h₇ : Drafting _ [⟨6⟩] := .place h₆ (.classDecl ⟨1, 1⟩ (.placed ⟨1, 7⟩ "A") ⟨1, 9⟩ [⟨5⟩] ⟨4, 1⟩
    (show Leads _ {} ⟨1, 1⟩ (some ⟨1, 1⟩) from fun _ => rfl)) (.refl _)
  exact ⟨_, _, { types := [⟨6⟩] }, h₇, .refl _, by decide⟩

theorem print_at_locations_fieldOverLines : Smooth {} false (fieldOverLines.events ⟨0⟩) ∧
    OnPage (fieldOverLines.events ⟨0⟩) ∧ fieldOverLines.print.layout.get? ⟨3⟩ = some ⟨⟨2, 11⟩, ⟨3, 8⟩⟩ := by
  have hsmooth : Smooth {} false (fieldOverLines.events ⟨0⟩) := by decide +kernel
  have hpage : OnPage (fieldOverLines.events ⟨0⟩) := by decide +kernel
  refine ⟨hsmooth, hpage, ?_⟩
  obtain ⟨s, hs, hlayout⟩ := drafted_fieldOverLines.print_at_locations hsmooth hpage (x := ⟨3⟩) rfl (by decide)
  cases hs
  exact hlayout

/-- A condition with brackets that close in the first column of the second line: `if (f` and `()) { }`. -/
def bracketsOnLine : Tree :=
  { cells := #[
      some { loc := .synthetic, kind := .unit { types := [⟨3⟩] } },
      some { parent := some ⟨3⟩, loc := .span ⟨⟨1, 5⟩, ⟨2, 2⟩⟩, kind := .call none (.placed ⟨1, 5⟩ "f") [] },
      some { parent := some ⟨3⟩, loc := .span ⟨⟨2, 4⟩, ⟨2, 7⟩⟩, kind := .block [] },
      some { parent := some ⟨0⟩, loc := .span ⟨⟨1, 1⟩, ⟨2, 7⟩⟩, kind := .ifStmt ⟨1⟩ ⟨2⟩ none }]
    root := ⟨0⟩ }

/-- **A target off the page is missed**: no target is behind the pen, but the brackets are written a column late. -/
theorem drafted_off_page : bracketsOnLine.Drafted ∧ Smooth {} false (bracketsOnLine.events ⟨0⟩) ∧
    bracketsOnLine.loc? ⟨1⟩ = some (.span ⟨⟨1, 5⟩, ⟨2, 2⟩⟩) ∧
    bracketsOnLine.print.layout.get? ⟨1⟩ = some ⟨⟨1, 5⟩, ⟨2, 3⟩⟩ := by
  refine ⟨?_, by decide +kernel, by decide, by decide +kernel⟩
  have h₁ : Drafting _ [⟨1⟩] := .place .empty (.call ⟨1, 5⟩ [] none (show "f" ≠ "" by decide)) (.refl _)
  have h₂ := h₁.close (k := .call none (.placed ⟨1, 5⟩ "f") []) rfl rfl
    (unseen_iff.1 (by decide : ∀ y ∈ Tree.ids _, ∀ k ∈ Tree.kind? _ y, (⟨1⟩ : NodeId) ∉ k.stopSources)) ⟨2, 1⟩
  have h₃ : Drafting _ [⟨2⟩, ⟨1⟩] := .place h₂ (.block ⟨2, 4⟩ [] ⟨2, 6⟩) (.refl _)
  have h₄ : Drafting _ [⟨3⟩] := .place h₃ (.ifStmt ⟨1, 1⟩ ⟨1⟩ ⟨2⟩ none) (by decide)
  exact ⟨_, _, { types := [⟨3⟩] }, h₄, .refl _, by decide⟩

end Tree

end UniformAccess
