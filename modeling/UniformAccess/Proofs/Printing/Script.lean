import UniformAccess.Printing.Script
import UniformAccess.Proofs.Position
/-!
# The strokes of a script

What is true of every stroke of a script follows from the parts that the script is put together of (`EveryStroke`). So
the pen is sent to no other positions than those of the locations in the node, or a few columns to the left of them
(`Aims`), and a node that closes with a token writes it last.
-/
namespace UniformAccess

namespace Script

variable {P : Stroke → Prop} {t : Tree} {items items' : List Item} {id : NodeId} {ids : List NodeId}

/-- **Every stroke among the items is one of `P`.** -/
def EveryStroke (P : Stroke → Prop) (items : List Item) : Prop := ∀ s, .stroke s ∈ items → P s

@[simp]
theorem everyStroke_nil : EveryStroke P [] := fun _ h => absurd h List.not_mem_nil

@[simp]
theorem everyStroke_child : EveryStroke P (.child id :: items) ↔ EveryStroke P items := by simp [EveryStroke]

@[simp]
theorem everyStroke_stroke {s : Stroke} : EveryStroke P (.stroke s :: items) ↔ P s ∧ EveryStroke P items := by
  simp [EveryStroke]

@[simp]
theorem everyStroke_append : EveryStroke P (items ++ items') ↔ EveryStroke P items ∧ EveryStroke P items' := by
  unfold EveryStroke
  simp only [List.mem_append, or_imp, forall_and]

@[simp]
theorem everyStroke_ite {c : Prop} [Decidable c] :
    EveryStroke P (if c then items else items') ↔ (c → EveryStroke P items) ∧ (¬ c → EveryStroke P items') := by
  split <;> simp_all

@[simp]
theorem everyStroke_children : EveryStroke P (ids.map .child) := by simp [EveryStroke]

@[simp]
theorem everyStroke_write {text : String} : EveryStroke P (write text) ↔ P (.write text) := by simp [write]

@[simp]
theorem everyStroke_sep {next : Option Pos} : EveryStroke P (sep next) ↔ P (.sep next) := by simp [sep]

@[simp]
theorem everyStroke_glue {g : Glue} {prev next : Option Pos} :
    EveryStroke P (glue g prev next) ↔ P (.glue g prev next) := by
  simp [glue]

@[simp]
theorem everyStroke_writeAt {text : String} {target : Option Pos} :
    EveryStroke P (writeAt text target) ↔ P (.goto target) ∧ P (.write text) := by
  simp [writeAt]

@[simp]
theorem everyStroke_keyword {present : Bool} {text : String} :
    EveryStroke P (keyword present text) ↔ (present = true → P (.write text)) := by
  simp [keyword]

@[simp]
theorem everyStroke_visibility {v : Option Visibility} : EveryStroke P (visibility v) ↔ ∀ w ∈ v, P (.write w.text) := by
  cases v <;> simp [visibility]

@[simp]
theorem everyStroke_separated : EveryStroke P (separated t id) ↔ P (.sep (t.start? id)) := by simp [separated]

@[simp]
theorem everyStroke_separatedAll : EveryStroke P (separatedAll t ids) ↔ ∀ id ∈ ids, P (.sep (t.start? id)) := by
  induction ids with
  | nil => simp [separatedAll]
  | cons id ids ih =>
    show EveryStroke P (separated t id ++ separatedAll t ids) ↔ _
    simp [ih]

@[simp]
theorem everyStroke_modifiers {m : Modifiers} :
    EveryStroke P (modifiers m) ↔ (m.annotations ≠ [] → m.hasKeyword = true → P (.sep none)) ∧
      (∀ w ∈ m.visibility, P (.write w.text)) ∧ (m.isAbstract = true → P (.write "abstract")) ∧
      (m.isStatic = true → P (.write "static")) ∧ (m.isFinal = true → P (.write "final")) := by
  simp [modifiers]

@[simp]
theorem everyStroke_modifiersThen {m : Modifiers} {next : Option Pos} : EveryStroke P (modifiersThen m next) ↔
    EveryStroke P (modifiers m) ∧ (hasModifiers m = true → P (.sep next)) := by
  simp only [modifiersThen, everyStroke_append, everyStroke_ite, everyStroke_sep, everyStroke_nil, implies_true,
    and_true]

@[simp]
theorem everyStroke_accessor {a : Accessor} {word : String} : EveryStroke P (accessor t a word) ↔
    P (.sep a.loc.start?) ∧ P (.goto a.loc.start?) ∧ (∀ w ∈ a.visibility, P (.write w.text)) ∧ P (.write word) ∧
      (∀ body ∈ a.body, P (.sep (t.start? body))) ∧ (a.body = none → P (.write ";")) := by
  unfold accessor
  cases a.body <;> simp

section

-- the tokens between children
variable (hcomma : ∀ prev next, P (.glue ⟨false, ",", true⟩ prev next))
  (hopen : ∀ prev next, P (.glue ⟨false, "(", false⟩ prev next))

section

include hcomma

theorem everyStroke_listAfter : ∀ (prev : NodeId) (ids : List NodeId), EveryStroke P (listAfter t prev ids)
  | _, [] => everyStroke_nil
  | _, id :: ids =>
    everyStroke_append.2 ⟨everyStroke_glue.2 (hcomma _ _), everyStroke_child.2 (everyStroke_listAfter id ids)⟩

@[simp]
theorem everyStroke_list : EveryStroke P (list t ids) := by
  cases ids with
  | nil => exact everyStroke_nil
  | cons id ids => exact everyStroke_child.2 (everyStroke_listAfter hcomma id ids)

@[simp]
theorem everyStroke_clause {word : String} : EveryStroke P (clause t word ids) ↔ (ids ≠ [] → P (.write word)) := by
  simp [clause, everyStroke_list hcomma]

@[simp]
theorem everyStroke_vars {d : VarsDecl} : EveryStroke P (vars t d) ↔
    EveryStroke P (modifiersThen d.modifiers (t.start? d.ty)) ∧ ∀ first ∈ d.vars.head?, P (.sep (t.start? first)) := by
  unfold vars
  cases d.vars <;> simp [everyStroke_list hcomma]

end

include hcomma hopen

@[simp]
theorem everyStroke_args {callee stop : Option Pos} : EveryStroke P (args t ids callee stop) ↔
    EveryStroke P (closing (if ids.isEmpty then "()" else ")") stop) := by
  cases ids <;> simp [args, everyStroke_list hcomma, hopen]

@[simp]
theorem everyStroke_params {name : Loc} :
    EveryStroke P (params t ids name) ↔ (ids = [] → P (.write "(")) ∧ P (.write ")") := by
  cases ids <;> simp [params, everyStroke_list hcomma, hopen]

end

/-! ## Parts of a script -/

variable {t : Tree} {ids : List NodeId}

/-- Children with commas between them end with the last. -/
theorem exists_list_eq {last : NodeId} (h : ids.getLast? = some last) :
    ∃ front, list t ids = front ++ [Item.child last] := by
  have hafter : ∀ (ids : List NodeId) (id : NodeId), (id :: ids).getLast? = some last →
      ∃ front, Item.child id :: listAfter t id ids = front ++ [Item.child last] := by
    intro ids
    induction ids with
    | nil =>
      intro id hid
      cases hid
      exact ⟨[], rfl⟩
    | cons c ids ih =>
      intro id hid
      obtain ⟨front, hfront⟩ := ih c (by rwa [List.getLast?_cons_cons] at hid)
      refine ⟨.child id :: glue ⟨false, ",", true⟩ (t.stop? id) (t.start? c) ++ front, ?_⟩
      rw [listAfter, hfront]
      rfl
  cases ids with
  | nil => cases h
  | cons id ids => exact hafter ids id h

/-- The children of a source file, with separators between them. -/
def kids (t : Tree) : List NodeId → List Item
  | [] => []
  | first :: rest => .child first :: separatedAll t rest

/-- A class up to its opening brace. -/
def classHead (t : Tree) (d : ClassDecl) : List Item :=
  modifiersThen d.modifiers none ++ write (if d.isInterface then "interface" else "class") ++ sep d.name.loc.start?
    ++ ident d.name ++ typeParams d.typeParams ++ clause t " extends " d.superclasses
    ++ clause t " implements " d.interfaces ++ openingBrace d.lbrace

end Script

/-- The token that a node closes with, where it stops. -/
def Kind.closer? : Kind → Option String
  | package _ => some ";"
  | importDecl _ => some ";"
  | classDecl _ => some "\x7d"
  | field _ => some ";"
  | method d => if d.body.isNone then some ";" else none
  | property _ => some "\x7d"
  | block _ => some "\x7d"
  | exprStmt _ => some ";"
  | returnStmt _ => some ";"
  | throwStmt _ => some ";"
  | emptyStmt => some ";"
  | call _ _ args => some (if args.isEmpty then "()" else ")")
  | newObject _ args => some (if args.isEmpty then "()" else ")")
  | paren _ => some ")"
  | indexExpr .. => some "]"
  | _ => none

theorem Kind.mem_of_closer? {k : Kind} {text : String} (h : k.closer? = some text) :
    text ∈ [";", "\x7d", "()", ")", "]"] := by
  cases k <;> simp only [Kind.closer?, Option.some.injEq, reduceCtorEq] at h
  case method d =>
    split at h
    · cases h
      decide
    · cases h
  all_goals
    subst h
    (repeat' split) <;> decide

theorem Kind.text_ne_of_closer? {k : Kind} {text : String} (h : k.closer? = some text) : text ≠ "" :=
  (by decide : ∀ text ∈ [";", "\x7d", "()", ")", "]"], text ≠ "") text (mem_of_closer? h)

theorem Kind.length_le_of_closer? {k : Kind} {text : String} (h : k.closer? = some text) : text.length ≤ 2 :=
  (by decide : ∀ text ∈ [";", "\x7d", "()", ")", "]"], text.length ≤ 2) text (mem_of_closer? h)

open Script in
/-- **A node that closes with a token writes it last.** -/
theorem Node.exists_script_eq {t : Tree} {n : Node} {text : String} (h : n.kind.closer? = some text) :
    ∃ items, n.script t = items ++ closing text n.loc.stop? := by
  obtain ⟨parent, loc, kind⟩ := n
  cases kind <;> simp only [Kind.closer?, Option.some.injEq, reduceCtorEq] at h
  case method d =>
    split at h
    · rename_i hbody
      cases h
      rw [Option.isNone_iff_eq_none] at hbody
      simp only [Node.script, hbody]
      exact ⟨_, rfl⟩
    · cases h
  case call scope name ids =>
    subst h
    cases ids with
    | nil => exact ⟨_, rfl⟩
    | cons id ids => exact ⟨_, (List.append_assoc _ _ _).symm⟩
  case newObject ty ids =>
    subst h
    cases ids with
    | nil => exact ⟨_, rfl⟩
    | cons id ids => exact ⟨_, (List.append_assoc _ _ _).symm⟩
  case classDecl d =>
    subst h
    exact ⟨_, (List.append_assoc _ _ _).symm⟩
  case property d =>
    subst h
    exact ⟨_, (List.append_assoc _ _ _).symm⟩
  case block stmts =>
    subst h
    exact ⟨_, (List.append_assoc _ _ _).symm⟩
  case exprStmt expr =>
    subst h
    exact ⟨[.child expr], rfl⟩
  case emptyStmt =>
    subst h
    exact ⟨[], rfl⟩
  case paren inner =>
    subst h
    exact ⟨write "(" ++ [Item.child inner], rfl⟩
  case indexExpr array index =>
    subst h
    exact ⟨.child array :: glue ⟨false, "[", false⟩ (t.stop? array) (t.start? index) ++ [Item.child index], rfl⟩
  all_goals
    subst h
    exact ⟨_, rfl⟩

open Script in
theorem Node.script_unit {t : Tree} {n : Node} {d : UnitDecl} (h : n.kind = .unit d) :
    n.script t = kids t (d.package.toList ++ d.imports ++ d.types) := by
  unfold Node.script
  rw [h]
  dsimp only
  generalize d.package.toList ++ d.imports ++ d.types = ids
  cases ids <;> rfl

open Script in
theorem Node.script_classDecl {t : Tree} {n : Node} {d : ClassDecl} (h : n.kind = .classDecl d) :
    n.script t = classHead t d ++ separatedAll t d.members ++ closingBrace n.loc.stop? := by
  unfold Node.script
  rw [h]
  rfl

/-! ## Where the pen is sent -/

/-- A stroke that sends the pen to positions in `A` only. -/
@[simp]
abbrev Stroke.AimsAt (A : Pos → Prop) : Stroke → Prop
  | goto target => ∀ q ∈ target, A q
  | _ => True

namespace Script

variable {A : Pos → Prop} {items : List Item}

/-- **The pen is sent to positions in `A` only.** -/
def Aims (A : Pos → Prop) (items : List Item) : Prop := ∀ q, .stroke (.goto (some q)) ∈ items → A q

theorem aims_iff : Aims A items ↔ EveryStroke (Stroke.AimsAt A) items := by
  constructor
  · intro h s hs
    cases s with
    | goto target => exact fun q hq => h q (Option.mem_def.1 hq ▸ hs)
    | _ => trivial
  · exact fun h q hq => h _ hq q rfl

theorem forall_mem_periodPos {l : Loc} (h : ∀ q ∈ l.start?, 1 < q.col → A (q.left 1)) : ∀ q ∈ periodPos l, A q := by
  intro q hq
  unfold periodPos at hq
  obtain ⟨q₀, hq₀, rfl⟩ := Option.map_eq_some_iff.1 (Option.mem_def.1 hq)
  obtain ⟨hstart, hcol⟩ := Option.filter_eq_some_iff.1 hq₀
  exact h q₀ hstart (by simpa using hcol)

end Script

open Script in
/-- **The pen is sent to the locations inside a node**, to the column before the name of a member, and to where the last
token of the node has to be. -/
theorem Node.aims_script {t : Tree} {n : Node} {A : Pos → Prop} (hinner : ∀ l ∈ n.kind.innerLocs, ∀ q ∈ l.start?, A q)
    (hperiod : ∀ l ∈ n.kind.innerLocs, ∀ q ∈ l.start?, 1 < q.col → A (q.left 1))
    (hclose : ∀ text, n.kind.closer? = some text → ∀ q ∈ n.loc.stop?, A (q.left text.length)) :
    Aims A (n.script t) := by
  obtain ⟨parent, loc, kind⟩ := n
  have hstop : ∀ text, kind.closer? = some text → ∀ q ∈ closingPos text loc.stop?, A q := fun text htext q hq => by
    obtain ⟨stop, hs, rfl⟩ := Option.map_eq_some_iff.1 (Option.mem_def.1 hq)
    exact hclose text htext stop hs
  dsimp only at hinner hperiod
  rw [aims_iff]
  cases kind with
  | unit d =>
    simp only [Node.script]
    split <;> simp
  | package path => simpa [Node.script, closing] using hstop _ rfl
  | importDecl d => simpa [Node.script, closing] using hstop _ rfl
  | classDecl d =>
    have hname := hinner d.name.loc (by simp [Kind.innerLocs])
    have hbrace := hinner d.lbrace (by simp [Kind.innerLocs])
    simpa [Node.script, ident, openingBrace, closingBrace, closing, typeParams] using ⟨hname, hbrace, hstop _ rfl⟩
  | field d => simpa [Node.script, closing] using hstop _ rfl
  | var name init =>
    have hname := hinner name.loc (by simp [Kind.innerLocs])
    cases init <;> simpa [Node.script, ident] using hname
  | method d =>
    have hname := hinner d.name.loc (by simp [Kind.innerLocs])
    have hend : d.body = none → ∀ q ∈ closingPos ";" loc.stop?, A q := fun hbody =>
      hstop ";" (by simp [Kind.closer?, hbody])
    simp only [Node.script]
    (repeat' split) <;> simp_all [closing, ident, typeParams]
  | constructorDecl d =>
    have hname := hinner d.name.loc (by simp [Kind.innerLocs])
    simpa [Node.script, ident] using hname
  | param d =>
    have hname := hinner d.name.loc (by simp [Kind.innerLocs])
    cases hty : d.ty <;> simpa [Node.script, ident, hty] using hname
  | property d =>
    have hname := hinner d.name.loc (by simp [Kind.innerLocs])
    have hbrace := hinner d.lbrace (by simp [Kind.innerLocs])
    have hget := hinner d.getter.loc (by simp [Kind.innerLocs])
    have hset := hinner d.setter.loc (by simp [Kind.innerLocs])
    cases hinit : d.initial <;>
      simpa [Node.script, ident, openingBrace, closingBrace, closing, hinit] using
        ⟨hname, hbrace, hget, hset, hstop _ rfl⟩
  | block stmts => simpa [Node.script, closingBrace, closing] using hstop _ rfl
  | exprStmt expr => simpa [Node.script, closing] using hstop _ rfl
  | returnStmt expr => cases expr <;> simpa [Node.script, closing] using hstop _ rfl
  | throwStmt expr => simpa [Node.script, closing] using hstop _ rfl
  | emptyStmt => simpa [Node.script, closing] using hstop _ rfl
  | fieldAccess scope member =>
    have hmember : member.loc ∈ Kind.innerLocs (.fieldAccess scope member) := by simp [Kind.innerLocs]
    simpa [Node.script, ident, period] using ⟨forall_mem_periodPos (hperiod _ hmember), hinner _ hmember⟩
  | call scope name ids =>
    have hname : name.loc ∈ Kind.innerLocs (.call scope name ids) := by simp [Kind.innerLocs]
    have hperiod := forall_mem_periodPos (hperiod _ hname)
    have hname := hinner _ hname
    cases scope <;> simp_all [Node.script, ident, period, closing, Kind.closer?]
  | newObject ty ids => simpa [Node.script, closing] using hstop _ rfl
  | paren inner => simpa [Node.script, closing] using hstop _ rfl
  | indexExpr array index => simpa [Node.script, closing] using hstop _ rfl
  | _ =>
    simp only [Node.script]
    (repeat' split) <;> simp

end UniformAccess
