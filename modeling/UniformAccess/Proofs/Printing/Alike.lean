import Mathlib.Data.List.Forall2
import UniformAccess.Proofs.Printing.Script
/-!
# Scripts that are alike

The script of a node depends on its kind, and on the positions of the node and of its children. `Likes` compares two
scripts stroke by stroke and child by child. With other children in the slots of a kind the script brings these in their
place, and other locations in the kind change nothing but the positions (`Node.script_like`). In particular, if the node
and its children move then the positions in the script move with them (`Node.script_moved`), as long as no room is made
within a token whose place is counted from its other end.
-/
namespace UniformAccess

/-- Slots with related children: one child faces one, and lists of the same length face each other. -/
inductive Slot.Related (R : NodeId → NodeId → Prop) : List Slot → List Slot → Prop
  | nil : Related R [] []
  | one {s s' : List Slot} {c c' : NodeId} : R c c' → Related R s s' → Related R (.one c :: s) (.one c' :: s')
  | many {s s' : List Slot} {cs cs' : List NodeId} : List.Forall₂ R cs cs' → Related R s s' →
      Related R (.many cs :: s) (.many cs' :: s')

/-- Every slot is related to itself if each child is. -/
theorem Slot.related_refl {R : NodeId → NodeId → Prop} : ∀ {slots : List Slot},
    (∀ c ∈ slots.flatMap Slot.children, R c c) → Slot.Related R slots slots
  | [], _ => .nil
  | .one c :: slots, h => .one (h c List.mem_cons_self) (related_refl fun d hd => h d (List.mem_cons_of_mem _ hd))
  | .many cs :: slots, h => by
    rw [List.flatMap_cons] at h
    refine .many (List.forall₂_same.2 fun c hc => h c (List.mem_append_left _ hc))
      (related_refl fun d hd => h d (List.mem_append_right _ hd))

/-- **Two strokes that write the same**, at positions that `A` relates and after positions that `B` relates. -/
def Stroke.Like (A B : Option Pos → Option Pos → Prop) : Stroke → Stroke → Prop
  | goto p, goto p' => A p p'
  | write text, write text' => text = text'
  | sep p, sep p' => A p p'
  | glue g a b, glue g' a' b' => g = g' ∧ B a a' ∧ A b b'
  | _, _ => False

/-- Two items that are strokes alike or related children. -/
def Item.Like (A B : Option Pos → Option Pos → Prop) (R : NodeId → NodeId → Prop) : Item → Item → Prop
  | stroke s, stroke s' => s.Like A B s'
  | child c, child c' => R c c'
  | _, _ => False

namespace Script

variable {A B : Option Pos → Option Pos → Prop} {R : NodeId → NodeId → Prop} {t t' : Tree} {c c' : NodeId}
  {cs cs' : List NodeId}

/-- **Two lists of items that are alike.** -/
def Likes (A B : Option Pos → Option Pos → Prop) (R : NodeId → NodeId → Prop) : List Item → List Item → Prop :=
  List.Forall₂ (Item.Like A B R)

theorem Likes.nil : Likes A B R [] [] := List.Forall₂.nil

theorem Likes.append {i i' j j' : List Item} (hi : Likes A B R i i') (hj : Likes A B R j j') :
    Likes A B R (i ++ j) (i' ++ j') := List.rel_append hi hj

theorem Likes.child {i i' : List Item} (hc : R c c') (hi : Likes A B R i i') :
    Likes A B R (.child c :: i) (.child c' :: i') := .cons hc hi

theorem Likes.goto {i i' : List Item} {p p' : Option Pos} (hp : A p p') (hi : Likes A B R i i') :
    Likes A B R (.stroke (.goto p) :: i) (.stroke (.goto p') :: i') := .cons hp hi

/-- Items that are alike are the same up to `g` if strokes and children are. -/
theorem Likes.eq_map {g : Item → Item} (hstroke : ∀ s s', s.Like A B s' → .stroke s' = g (.stroke s))
    (hchild : ∀ c c', R c c' → .child c' = g (.child c)) {i i' : List Item} (h : Likes A B R i i') : i' = i.map g := by
  induction h with
  | nil => rfl
  | @cons a b _ _ hab _ ih =>
    rw [ih, List.map_cons]
    cases a <;> cases b <;> first | exact hab.elim | skip
    · rw [hstroke _ _ hab]
    · rw [hchild _ _ hab]

theorem likes_write (text : String) : Likes A B R (write text) (write text) := .cons rfl .nil

theorem likes_sep {p p' : Option Pos} (hp : A p p') : Likes A B R (sep p) (sep p') := .cons hp .nil

theorem likes_glue (g : Glue) {a a' b b' : Option Pos} (ha : B a a') (hb : A b b') :
    Likes A B R (glue g a b) (glue g a' b') := .cons ⟨rfl, ha, hb⟩ .nil

theorem likes_writeAt (text : String) {p p' : Option Pos} (hp : A p p') :
    Likes A B R (writeAt text p) (writeAt text p') := .goto hp (likes_write text)

theorem likes_keyword (present : Bool) (text : String) : Likes A B R (keyword present text) (keyword present text) := by
  unfold keyword
  split
  · exact likes_write text
  · exact .nil

theorem likes_visibility (v : Option Visibility) : Likes A B R (visibility v) (visibility v) := by
  unfold visibility
  split
  · exact likes_write _
  · exact .nil

theorem likes_typeParams (params : List String) : Likes A B R (typeParams params) (typeParams params) := by
  unfold typeParams
  split
  · exact .nil
  · exact likes_write _

theorem isEmpty_eq (h : List.Forall₂ R cs cs') : cs'.isEmpty = cs.isEmpty := by
  cases h <;> rfl

theorem likes_children (h : List.Forall₂ R cs cs') : Likes A B R (cs.map .child) (cs'.map .child) := by
  induction h with
  | nil => exact .nil
  | cons hc _ ih => exact .child hc ih

section

-- the positions of related children are related
variable (hstart : ∀ c c', R c c' → A (t.start? c) (t'.start? c'))
  (hstop : ∀ c c', R c c' → B (t.stop? c) (t'.stop? c'))

section

include hstart

theorem likes_separated (hc : R c c') : Likes A B R (separated t c) (separated t' c') :=
  (likes_sep (hstart c c' hc)).append (.child hc .nil)

theorem likes_separatedAll (h : List.Forall₂ R cs cs') : Likes A B R (separatedAll t cs) (separatedAll t' cs') := by
  induction h with
  | nil => exact .nil
  | cons hc _ ih => exact (likes_separated hstart hc).append ih

end

include hstart hstop

theorem likes_listAfter (h : List.Forall₂ R cs cs') :
    ∀ {prev prev' : NodeId}, R prev prev' → Likes A B R (listAfter t prev cs) (listAfter t' prev' cs') := by
  induction h with
  | nil => exact fun _ => .nil
  | cons hc _ ih => exact fun hprev => (likes_glue _ (hstop _ _ hprev) (hstart _ _ hc)).append (.child hc (ih hc))

theorem likes_list (h : List.Forall₂ R cs cs') : Likes A B R (list t cs) (list t' cs') := by
  cases h with
  | nil => exact .nil
  | cons hc h => exact .child hc (likes_listAfter hstart hstop h hc)

theorem likes_clause (word : String) (h : List.Forall₂ R cs cs') :
    Likes A B R (clause t word cs) (clause t' word cs') := by
  unfold clause
  rw [isEmpty_eq h]
  split
  · exact .nil
  · exact (likes_write word).append (likes_list hstart hstop h)

/-- A list between brackets, if it is not empty. -/
theorem likes_enclosed (opening closing : String) (h : List.Forall₂ R cs cs') :
    Likes A B R (if cs.isEmpty then [] else write opening ++ list t cs ++ write closing)
      (if cs'.isEmpty then [] else write opening ++ list t' cs' ++ write closing) := by
  rw [isEmpty_eq h]
  split
  · exact .nil
  · exact ((likes_write _).append (likes_list hstart hstop h)).append (likes_write _)

theorem likes_args {callee callee' stop stop' : Option Pos} (h : List.Forall₂ R cs cs') (hcallee : B callee callee')
    (hclose : Likes A B R (closing (if cs.isEmpty then "()" else ")") stop)
      (closing (if cs.isEmpty then "()" else ")") stop')) :
    Likes A B R (args t cs callee stop) (args t' cs' callee' stop') := by
  have hlist := likes_list hstart hstop h
  cases h with
  | nil => exact hclose
  | cons hc h => exact ((likes_glue _ hcallee (hstart _ _ hc)).append hlist).append hclose

theorem likes_params {name name' : Loc} (h : List.Forall₂ R cs cs') (hname : B name.stop? name'.stop?) :
    Likes A B R (params t cs name) (params t' cs' name') := by
  have hlist := likes_list hstart hstop h
  cases h with
  | nil => exact (likes_write _).append (likes_write _)
  | cons hc h => exact ((likes_glue _ hname (hstart _ _ hc)).append hlist).append (likes_write _)

end

/-- The children of a source file. -/
theorem likes_kids (hstart : ∀ c c', R c c' → A (t.start? c) (t'.start? c')) (h : List.Forall₂ R cs cs') :
    Likes A B R (kids t cs) (kids t' cs') := by
  cases h with
  | nil => exact .nil
  | cons hc h => exact .child hc (likes_separatedAll hstart h)

/-- What is read off the last of related children is related. -/
theorem rel_getLast? {S : Option Pos → Option Pos → Prop} {g k : NodeId → Option Pos} (hnone : S none none)
    (h : List.Forall₂ R cs cs') (hlast : ∀ c c', cs.getLast? = some c → R c c' → S (g c) (k c')) :
    S (cs.getLast?.bind g) (cs'.getLast?.bind k) := by
  induction h with
  | nil => exact hnone
  | cons hc h ih =>
    cases h with
    | nil => exact hlast _ _ rfl hc
    | cons _ _ =>
      rw [List.getLast?_cons_cons, List.getLast?_cons_cons]
      exact ih fun c c' hc => hlast c c' (by rwa [List.getLast?_cons_cons])

theorem hasModifiers_eq {m : Modifiers} {annotations : List NodeId} (h : List.Forall₂ R m.annotations annotations) :
    hasModifiers { m with annotations } = hasModifiers m := by
  unfold hasModifiers
  rw [isEmpty_eq h]
  rfl

theorem likes_modifiers (hnone : A none none) {m : Modifiers} {annotations : List NodeId}
    (h : List.Forall₂ R m.annotations annotations) : Likes A B R (modifiers m) (modifiers { m with annotations }) := by
  unfold modifiers
  rw [isEmpty_eq h]
  refine ((((likes_children h).append ?_).append (likes_visibility _)).append (likes_keyword _ _)).append
    (likes_keyword _ _) |>.append (likes_keyword _ _)
  show Likes A B R (if !m.annotations.isEmpty && m.hasKeyword then sep none else [])
    (if !m.annotations.isEmpty && m.hasKeyword then sep none else [])
  split
  · exact likes_sep hnone
  · exact .nil

theorem likes_modifiersThen (hnone : A none none) {m : Modifiers} {annotations : List NodeId} {next next' : Option Pos}
    (h : List.Forall₂ R m.annotations annotations) (hnext : A next next') :
    Likes A B R (modifiersThen m next) (modifiersThen { m with annotations } next') := by
  unfold modifiersThen
  rw [hasModifiers_eq h]
  refine (likes_modifiers hnone h).append ?_
  split
  · exact likes_sep hnext
  · exact .nil

theorem likes_vars (hnone : A none none) (hstart : ∀ c c', R c c' → A (t.start? c) (t'.start? c'))
    (hstop : ∀ c c', R c c' → B (t.stop? c) (t'.stop? c')) {d : VarsDecl} {annotations : List NodeId}
    (hannotations : List.Forall₂ R d.modifiers.annotations annotations) (hty : R d.ty c)
    (hvars : List.Forall₂ R d.vars cs) :
    Likes A B R (vars t d) (vars t' { modifiers := { d.modifiers with annotations }, ty := c, vars := cs }) := by
  have hlist := likes_list hstart hstop hvars
  refine (likes_modifiersThen hnone hannotations (hstart _ _ hty)).append (.child hty ?_)
  cases hd : d.vars with
  | nil =>
    rw [hd] at hvars
    cases hvars
    exact .nil
  | cons first rest =>
    rw [hd] at hvars hlist
    cases hvars with
    | cons hc _ => exact (likes_sep (hstart _ _ hc)).append hlist

theorem likes_openingBrace {l l' : Loc} (h : A l.start? l'.start?) : Likes A B R (openingBrace l) (openingBrace l') :=
  (likes_sep h).append (likes_writeAt _ h)

/-- A class up to its opening brace. -/
theorem likes_classHead (hnone : A none none) (hstart : ∀ c c', R c c' → A (t.start? c) (t'.start? c'))
    (hstop : ∀ c c', R c c' → B (t.stop? c) (t'.stop? c')) {d : ClassDecl}
    {annotations supers inters members : List NodeId}
    {name lbrace : Loc} (hannotations : List.Forall₂ R d.modifiers.annotations annotations)
    (hsupers : List.Forall₂ R d.superclasses supers) (hinters : List.Forall₂ R d.interfaces inters)
    (hname : A d.name.loc.start? name.start?) (hlbrace : A d.lbrace.start? lbrace.start?) :
    Likes A B R (classHead t d) (classHead t'
      { d with modifiers := { d.modifiers with annotations }, name := { d.name with loc := name }, lbrace,
               superclasses := supers, interfaces := inters, members }) :=
  (((((((likes_modifiersThen hnone hannotations hnone).append (likes_write _)).append (likes_sep hname)).append
    (likes_writeAt _ hname)).append (likes_typeParams _)).append (likes_clause hstart hstop _ hsupers)).append
    (likes_clause hstart hstop _ hinters)).append (likes_openingBrace hlbrace)

theorem likes_accessor (hstart : ∀ c c', R c c' → A (t.start? c) (t'.start? c')) {a : Accessor} {l : Loc}
    {body : Option NodeId} (word : String) (hloc : A a.loc.start? l.start?) (hbody : Option.Rel R a.body body) :
    Likes A B R (accessor t a word) (accessor t' { a with loc := l, body } word) := by
  refine (((likes_sep hloc).append (.goto hloc (likes_visibility _))).append (likes_write word)).append ?_
  cases ha : a.body with
  | none =>
    rw [ha] at hbody
    cases hbody
    exact likes_write _
  | some c =>
    rw [ha] at hbody
    cases hbody with
    | some hc => exact likes_separated hstart hc

end Script

open Script

section

variable {A B : Option Pos → Option Pos → Prop} {R : NodeId → NodeId → Prop} {f : Nat → Loc → Loc} {slots : List Slot}
  {t t' : Tree} {n n' : Node}

/-- **Two nodes of one kind, but for what is in the slots and the locations.** `A` relates the positions that the pen
is sent to, and `B` those that it comes from: of related children, of the locations inside the nodes, and of the tokens
whose places are counted from the ends of a node or of a child. -/
structure Node.Alike (A B : Option Pos → Option Pos → Prop) (R : NodeId → NodeId → Prop) (f : Nat → Loc → Loc)
    (slots : List Slot) (t t' : Tree) (n n' : Node) : Prop where
  kind_eq : n'.kind = (n.kind.withSlots slots).mapInnerLocs f
  related : Slot.Related R n.kind.slots slots
  start : ∀ c c', R c c' → A (t.start? c) (t'.start? c')
  stop : ∀ c c', R c c' → B (t.stop? c) (t'.stop? c')
  no_next : A none none
  no_prev : B none none
  inner : ∀ {i l}, n.kind.innerLocs[i]? = some l →
    A l.start? (f i l).start? ∧ B l.stop? (f i l).stop? ∧ A (periodPos l) (periodPos (f i l))
  closing : ∀ text, n.kind.closer? = some text → A (closingPos text n.loc.stop?) (closingPos text n'.loc.stop?)
  keyword : ∀ word rest, n.script t = write word ++ rest → B (keywordStop n.loc word) (keywordStop n'.loc word)
  paren : ∀ front c back c', n.script t = front ++ .child c :: (write ")" ++ back) → R c c' →
    B ((t.stop? c).map (·.right 1)) ((t'.stop? c').map (·.right 1))

/-- **The scripts of such nodes are alike.** -/
theorem Node.script_like (h : Alike A B R f slots t t' n n') : Likes A B R (n.script t) (n'.script t') := by
  obtain ⟨hkind, h, hstart, hstop, hA, hB, hinner, hclosing, hkeyword, hparen⟩ := h
  obtain ⟨parent, loc, k⟩ := n
  obtain ⟨parent', loc', k'⟩ := n'
  obtain rfl : k' = (k.withSlots slots).mapInnerLocs f := hkind
  have hlist := fun {cs cs'} (h : List.Forall₂ R cs cs') => likes_list hstart hstop h
  have hclose : ∀ text, k.closer? = some text → Likes A B R (closing text loc.stop?) (closing text loc'.stop?) :=
    fun text h => likes_writeAt text (hclosing text h)
  have hsemicolon := hclose ";"
  have hbrace : k.closer? = some "\x7d" → Likes A B R (closingBrace loc.stop?) (closingBrace loc'.stop?) := fun h =>
    (likes_sep (hclosing _ h)).append (hclose _ h)
  have hsep := fun {c c'} (hc : R c c') => likes_separated (B := B) hstart hc
  have hname : ∀ {i l}, k.innerLocs[i]? = some l → Likes A B R (sep l.start?) (sep (f i l).start?) := fun h =>
    likes_sep (hinner h).1
  have hident : ∀ {i} {name : Ident}, k.innerLocs[i]? = some name.loc →
      Likes A B R (ident name) (ident { name with loc := f i name.loc }) := fun h => likes_writeAt _ (hinner h).1
  have hparams := fun {i} {l : Loc} (hl : k.innerLocs[i]? = some l) {cs cs'} (h : List.Forall₂ R cs cs') =>
    likes_params hstart hstop h (hinner hl).2.1
  have hclause := fun word {cs cs'} (h : List.Forall₂ R cs cs') => likes_clause hstart hstop word h
  have hglue := fun g {c c' d d'} (hc : R c c') (hd : R d d') =>
    likes_glue (R := R) g (hstop c c' hc) (hstart d d' hd)
  have hmods := fun {m : Modifiers} {annotations} (h : List.Forall₂ R m.annotations annotations) {next next'}
    (hnext : A next next') => likes_modifiersThen (B := B) hA h hnext
  cases k with
  | placeholder => exact .nil
  | unit d =>
    obtain ⟨package, imports, types⟩ := d
    cases package with
    | none =>
      obtain _ | _ | ⟨himports, _ | _ | ⟨htypes, ⟨⟩⟩⟩ := h
      rw [Node.script_unit rfl, Node.script_unit rfl]
      exact likes_kids hstart (List.rel_append himports htypes)
    | some package =>
      obtain _ | ⟨hpackage, _ | _ | ⟨himports, _ | _ | ⟨htypes, ⟨⟩⟩⟩⟩ := h
      exact .child hpackage (likes_separatedAll hstart (List.rel_append himports htypes))
  | package path => exact (likes_write _).append (hsemicolon rfl)
  | importDecl d =>
    exact ((((likes_write _).append (likes_keyword _ _)).append (likes_write _)).append (likes_keyword _ _)).append
      (hsemicolon rfl)
  | annotationUse name args =>
    obtain _ | _ | ⟨hargs, ⟨⟩⟩ := h
    exact (likes_write _).append (likes_enclosed hstart hstop _ _ hargs)
  | classDecl d =>
    obtain _ | _ | ⟨hannotations, _ | _ | ⟨hsuper, _ | _ | ⟨hinter, _ | _ | ⟨hmembers, ⟨⟩⟩⟩⟩⟩ := h
    exact ((likes_classHead hA hstart hstop hannotations hsuper hinter (hinner (i := 0) rfl).1
      (hinner (i := 1) rfl).1).append (likes_separatedAll hstart hmembers)).append (hbrace rfl)
  | field d =>
    obtain _ | _ | ⟨hannotations, _ | ⟨hty, _ | _ | ⟨hvars, ⟨⟩⟩⟩⟩ := h
    exact (likes_vars hA hstart hstop hannotations hty hvars).append (hsemicolon rfl)
  | var name init =>
    cases init with
    | none =>
      cases h
      exact (hident (i := 0) rfl).append .nil
    | some init =>
      obtain _ | ⟨hinit, ⟨⟩⟩ := h
      exact (hident (i := 0) rfl).append
        ((likes_glue _ (hinner (i := 0) rfl).2.1 (hstart _ _ hinit)).append (.child hinit .nil))
  | method d =>
    obtain ⟨modifiers, typeParams, result, name, params, throws, body⟩ := d
    have hhead : ∀ {annotations result' params' throws'}, List.Forall₂ R modifiers.annotations annotations →
        R result result' → List.Forall₂ R params params' → List.Forall₂ R throws throws' → Likes A B R
          (Script.modifiers modifiers ++ (if hasModifiers modifiers && !typeParams.isEmpty then sep none else [])
            ++ Script.typeParams typeParams
            ++ (if hasModifiers modifiers || !typeParams.isEmpty then sep (t.start? result) else [])
            ++ Item.child result :: sep name.loc.start? ++ ident name ++ Script.params t params name.loc
            ++ clause t " throws " throws)
          (Script.modifiers { modifiers with annotations }
            ++ (if hasModifiers { modifiers with annotations } && !typeParams.isEmpty then sep none else [])
            ++ Script.typeParams typeParams
            ++ (if hasModifiers { modifiers with annotations } || !typeParams.isEmpty then sep (t'.start? result')
              else [])
            ++ Item.child result' :: sep (f 0 name.loc).start? ++ ident { name with loc := f 0 name.loc }
            ++ Script.params t' params' (f 0 name.loc) ++ clause t' " throws " throws') :=
        fun hannotations hresult hparams' hthrows => by
      rw [hasModifiers_eq hannotations]
      refine (((((((likes_modifiers hA hannotations).append ?_).append (likes_typeParams _)).append ?_).append
        (.child hresult (hname (i := 0) rfl))).append (hident (i := 0) rfl)).append
        (hparams (i := 0) rfl hparams')).append (hclause _ hthrows)
      · split
        · exact likes_sep hA
        · exact .nil
      · split
        · exact likes_sep (hstart _ _ hresult)
        · exact .nil
    cases body with
    | none =>
      obtain _ | _ | ⟨hannotations, _ | ⟨hresult, _ | _ | ⟨hps, _ | _ | ⟨hthrows, ⟨⟩⟩⟩⟩⟩ := h
      exact (hhead hannotations hresult hps hthrows).append (hsemicolon rfl)
    | some body =>
      obtain _ | _ | ⟨hannotations, _ | ⟨hresult, _ | _ | ⟨hps, _ | _ | ⟨hthrows, _ | ⟨hbody, ⟨⟩⟩⟩⟩⟩⟩ := h
      exact (hhead hannotations hresult hps hthrows).append (hsep hbody)
  | constructorDecl d =>
    obtain _ | _ | ⟨hannotations, _ | _ | ⟨hps, _ | _ | ⟨hthrows, _ | ⟨hbody, ⟨⟩⟩⟩⟩⟩ := h
    exact ((((hmods hannotations (hinner (i := 0) rfl).1).append (hident (i := 0) rfl)).append
      (hparams (i := 0) rfl hps)).append (hclause _ hthrows)).append (hsep hbody)
  | param d =>
    obtain ⟨modifiers, ty, isVarArgs, name⟩ := d
    cases ty with
    | none =>
      obtain _ | _ | ⟨hannotations, ⟨⟩⟩ := h
      exact ((hmods hannotations hA).append .nil).append (hident (i := 0) rfl)
    | some ty =>
      obtain _ | _ | ⟨hannotations, _ | ⟨hty, ⟨⟩⟩⟩ := h
      exact ((hmods hannotations (hstart _ _ hty)).append
        (.child hty ((likes_keyword _ _).append (hname (i := 0) rfl)))).append (hident (i := 0) rfl)
  | initializer isStatic body =>
    obtain _ | ⟨hbody, ⟨⟩⟩ := h
    cases isStatic
    · exact .child hbody .nil
    · exact (likes_write _).append (hsep hbody)
  | property d =>
    obtain ⟨modifiers, ty, name, lbrace, initial, getter, setter⟩ := d
    obtain ⟨getLoc, getVisibility, getBody⟩ := getter
    obtain ⟨setLoc, setVisibility, setBody⟩ := setter
    obtain _ | _ | ⟨hannotations, _ | ⟨hty, h⟩⟩ := h
    have hhead := ((hmods hannotations (hstart _ _ hty)).append (.child hty (hname (i := 0) rfl))).append
      (hident (i := 0) rfl) |>.append (likes_openingBrace (hinner (i := 1) rfl).1)
    have hget := fun {body'} (hbody : Option.Rel R getBody body') =>
      likes_accessor (B := B) (a := ⟨getLoc, getVisibility, getBody⟩) hstart "get" (hinner (i := 2) rfl).1 hbody
    have hset := fun {body'} (hbody : Option.Rel R setBody body') =>
      likes_accessor (B := B) (a := ⟨setLoc, setVisibility, setBody⟩) hstart "set" (hinner (i := 3) rfl).1 hbody
    have hdef : ∀ {c c'}, R c c' →
        Likes A B R (sep none ++ write "def" ++ glue (.spaced "=") none (t.start? c) ++ [Item.child c])
          (sep none ++ write "def" ++ glue (.spaced "=") none (t'.start? c') ++ [Item.child c']) := fun hc =>
      (((likes_sep hA).append (likes_write _)).append (likes_glue _ hB (hstart _ _ hc))).append (.child hc .nil)
    -- the bodies and the initial value are there or not
    cases initial <;> cases getBody <;> cases setBody
    · cases h
      exact (((hhead.append (hget .none)).append (hset .none)).append .nil).append (hbrace rfl)
    · obtain _ | ⟨hs, ⟨⟩⟩ := h
      exact (((hhead.append (hget .none)).append (hset (.some hs))).append .nil).append (hbrace rfl)
    · obtain _ | ⟨hg, ⟨⟩⟩ := h
      exact (((hhead.append (hget (.some hg))).append (hset .none)).append .nil).append (hbrace rfl)
    · obtain _ | ⟨hg, _ | ⟨hs, ⟨⟩⟩⟩ := h
      exact (((hhead.append (hget (.some hg))).append (hset (.some hs))).append .nil).append (hbrace rfl)
    · obtain _ | ⟨hinit, ⟨⟩⟩ := h
      exact (((hhead.append (hget .none)).append (hset .none)).append (hdef hinit)).append (hbrace rfl)
    · obtain _ | ⟨hinit, _ | ⟨hs, ⟨⟩⟩⟩ := h
      exact (((hhead.append (hget .none)).append (hset (.some hs))).append (hdef hinit)).append (hbrace rfl)
    · obtain _ | ⟨hinit, _ | ⟨hg, ⟨⟩⟩⟩ := h
      exact (((hhead.append (hget (.some hg))).append (hset .none)).append (hdef hinit)).append (hbrace rfl)
    · obtain _ | ⟨hinit, _ | ⟨hg, _ | ⟨hs, ⟨⟩⟩⟩⟩ := h
      exact (((hhead.append (hget (.some hg))).append (hset (.some hs))).append (hdef hinit)).append (hbrace rfl)
  | primitiveType p => exact likes_write _
  | classType scope name ids =>
    cases scope with
    | none =>
      obtain _ | _ | ⟨hids, ⟨⟩⟩ := h
      exact (Likes.nil.append (likes_write _)).append (likes_enclosed hstart hstop _ _ hids)
    | some scope =>
      obtain _ | ⟨hscope, _ | _ | ⟨hids, ⟨⟩⟩⟩ := h
      exact ((Likes.child hscope (likes_write _)).append (likes_write _)).append (likes_enclosed hstart hstop _ _ hids)
  | arrayType elem dims =>
    obtain _ | ⟨helem, ⟨⟩⟩ := h
    exact .child helem (likes_write _)
  | voidType => exact likes_write _
  | block stmts =>
    obtain _ | _ | ⟨hstmts, ⟨⟩⟩ := h
    exact ((likes_write _).append (likes_separatedAll hstart hstmts)).append (hbrace rfl)
  | exprStmt expr =>
    obtain _ | ⟨hexpr, ⟨⟩⟩ := h
    exact .child hexpr (hsemicolon rfl)
  | localVar d =>
    obtain _ | _ | ⟨hannotations, _ | ⟨hty, _ | _ | ⟨hvars, ⟨⟩⟩⟩⟩ := h
    exact likes_vars hA hstart hstop hannotations hty hvars
  | ifStmt cond yes no =>
    have hhead : ∀ {cond' yes'}, R cond cond' → R yes yes' → Likes A B R
        (write "if" ++ glue ⟨true, "(", false⟩ (keywordStop loc "if") (t.start? cond) ++ Item.child cond :: write ")"
          ++ separated t yes)
        (write "if" ++ glue ⟨true, "(", false⟩ (keywordStop loc' "if") (t'.start? cond')
          ++ Item.child cond' :: write ")" ++ separated t' yes') := fun hcond hyes =>
      (((likes_write _).append (likes_glue _ (hkeyword _ _ rfl) (hstart _ _ hcond))).append
        (.child hcond (likes_write _))).append (hsep hyes)
    cases no with
    | none =>
      obtain _ | ⟨hcond, _ | ⟨hyes, ⟨⟩⟩⟩ := h
      exact (hhead hcond hyes).append .nil
    | some no =>
      obtain _ | ⟨hcond, _ | ⟨hyes, _ | ⟨hno, ⟨⟩⟩⟩⟩ := h
      exact (hhead hcond hyes).append (((likes_sep hA).append (likes_write _)).append (hsep hno))
  | whileStmt cond body =>
    obtain _ | ⟨hcond, _ | ⟨hbody, ⟨⟩⟩⟩ := h
    exact ((likes_write _).append (likes_glue _ (hkeyword _ _ rfl) (hstart _ _ hcond))).append
      (.child hcond ((likes_write _).append (hsep hbody)))
  | forStmt init cond update body =>
    have hwhole : ∀ {init' cond' update' body'}, List.Forall₂ R init init' → Option.Rel R cond cond' →
        List.Forall₂ R update update' → R body body' → Likes A B R
          (Node.script t ⟨parent, loc, .forStmt init cond update body⟩)
          (Node.script t' ⟨parent', loc', .forStmt init' cond' update' body'⟩) := fun hinit hcond hupdate hbody => by
      refine (((((((likes_write _).append (likes_glue _ (hkeyword _ _ rfl) ?_)).append (hlist hinit)).append
        (likes_write _)).append ?_).append (likes_write _)).append ?_).append (likes_write _) |>.append (hsep hbody)
      · cases hinit with
        | cons hc _ => exact hstart _ _ hc
        | nil =>
          cases hcond with
          | none => exact hA
          | some hc => exact hstart _ _ hc
      · cases hcond with
        | none => exact .nil
        | some hc => exact hsep hc
      · have hlist := hlist hupdate
        cases hupdate with
        | nil => exact .nil
        | cons hc _ => exact (likes_sep (hstart _ _ hc)).append hlist
    cases cond with
    | none =>
      obtain _ | _ | ⟨hinit, _ | _ | ⟨hupdate, _ | ⟨hbody, ⟨⟩⟩⟩⟩ := h
      exact hwhole hinit .none hupdate hbody
    | some cond =>
      obtain _ | _ | ⟨hinit, _ | ⟨hcond, _ | _ | ⟨hupdate, _ | ⟨hbody, ⟨⟩⟩⟩⟩⟩ := h
      exact hwhole hinit (.some hcond) hupdate hbody
  | returnStmt expr =>
    cases expr with
    | none =>
      cases h
      exact ((likes_write _).append .nil).append (hsemicolon rfl)
    | some expr =>
      obtain _ | ⟨hexpr, ⟨⟩⟩ := h
      exact ((likes_write _).append (hsep hexpr)).append (hsemicolon rfl)
  | throwStmt expr =>
    obtain _ | ⟨hexpr, ⟨⟩⟩ := h
    exact ((likes_write _).append (hsep hexpr)).append (hsemicolon rfl)
  | emptyStmt => exact (hsemicolon rfl)
  | nameExpr name => exact likes_write _
  | fieldAccess scope member =>
    obtain _ | ⟨hscope, ⟨⟩⟩ := h
    exact .child hscope ((likes_writeAt _ (hinner (i := 0) rfl).2.2).append (hident (i := 0) rfl))
  | call scope name ids =>
    cases scope with
    | none =>
      obtain _ | _ | ⟨hids, ⟨⟩⟩ := h
      exact (Likes.nil.append (hident (i := 0) rfl)).append
        (likes_args hstart hstop hids (hinner (i := 0) rfl).2.1 (hclose _ rfl))
    | some scope =>
      obtain _ | ⟨hscope, _ | _ | ⟨hids, ⟨⟩⟩⟩ := h
      exact ((Likes.child hscope (likes_writeAt _ (hinner (i := 0) rfl).2.2)).append (hident (i := 0) rfl)).append
        (likes_args hstart hstop hids (hinner (i := 0) rfl).2.1 (hclose _ rfl))
  | assign target op value =>
    obtain _ | ⟨htarget, _ | ⟨hvalue, ⟨⟩⟩⟩ := h
    exact .child htarget ((hglue _ htarget hvalue).append (.child hvalue .nil))
  | binary left op right =>
    obtain _ | ⟨hleft, _ | ⟨hr, ⟨⟩⟩⟩ := h
    exact .child hleft ((hglue _ hleft hr).append (.child hr .nil))
  | unary op expr =>
    obtain _ | ⟨hexpr, ⟨⟩⟩ := h
    show Likes A B R (if op.followsOperand then _ else _) (if op.followsOperand then _ else _)
    split
    · exact .child hexpr (likes_write _)
    · exact (likes_write _).append (.child hexpr .nil)
  | literal l => exact likes_write _
  | thisExpr => exact likes_write _
  | newObject ty ids =>
    obtain _ | ⟨hty, _ | _ | ⟨hids, ⟨⟩⟩⟩ := h
    exact ((likes_write _).append (hsep hty)).append (likes_args hstart hstop hids (hstop _ _ hty) (hclose _ rfl))
  | paren inner =>
    obtain _ | ⟨hinner, ⟨⟩⟩ := h
    exact (likes_write _).append (.child hinner (hclose _ rfl))
  | lambda ids isParenthesized body =>
    obtain _ | _ | ⟨hids, _ | ⟨hbody, ⟨⟩⟩⟩ := h
    cases isParenthesized with
    | false =>
      have hlast := rel_getLast? hB hids fun c c' _ => hstop c c'
      exact ((hlist hids).append (likes_glue _ hlast (hstart _ _ hbody))).append (.child hbody .nil)
    | true =>
      have hlast := rel_getLast? (S := fun p p' => B (p.map (·.right 1)) (p'.map (·.right 1))) (g := t.stop?)
        (k := t'.stop?) hB hids fun c c' hlast hc => by
          obtain ⟨front, hfront⟩ := exists_list_eq (t := t) hlast
          refine hparen (write "(" ++ front) c (glue (.spaced "->") ((ids.getLast?.bind t.stop?).map (·.right 1))
            (t.start? body) ++ [Item.child body]) c' ?_ hc
          simp only [Node.script, if_true, hfront, List.append_assoc, List.cons_append, List.nil_append]
      exact ((((likes_write _).append (hlist hids)).append (likes_write _)).append
        (likes_glue _ hlast (hstart _ _ hbody))).append (.child hbody .nil)
  | conditional cond yes no =>
    obtain _ | ⟨hcond, _ | ⟨hyes, _ | ⟨hno, ⟨⟩⟩⟩⟩ := h
    exact .child hcond ((hglue _ hcond hyes).append (.child hyes ((hglue _ hyes hno).append (.child hno .nil))))
  | cast ty expr =>
    obtain _ | ⟨hty, _ | ⟨hexpr, ⟨⟩⟩⟩ := h
    exact (likes_write _).append (.child hty ((likes_write _).append (hsep hexpr)))
  | indexExpr array index =>
    obtain _ | ⟨harray, _ | ⟨hindex, ⟨⟩⟩⟩ := h
    exact .child harray ((hglue _ harray hindex).append (.child hindex (hclose _ rfl)))

end

/-! ## Moving a script -/

/-- The stroke at other positions. -/
def Stroke.moved (f : Pos → Pos) : Stroke → Stroke
  | goto target => goto (target.map f)
  | write text => write text
  | sep next => sep (next.map f)
  | glue g prev next => glue g (prev.map f) (next.map f)

/-- The item at other positions. -/
def Item.moved (f : Pos → Pos) : Item → Item
  | stroke s => stroke (s.moved f)
  | child id => child id

/-- **A node has moved with the room.** -/
structure Tree.Follows (r : Room) (t t' : Tree) (id : NodeId) : Prop where
  start_eq : t'.start? id = (t.start? id).map r.move
  stop_eq : t'.stop? id = (t.stop? id).map r.move

/-- **Two lists of items with the same children, at positions that have moved with the room.** -/
abbrev Script.Follows (r : Room) (t t' : Tree) : List Item → List Item → Prop :=
  Likes (fun p p' => p' = p.map r.move) (fun p p' => p' = p.map r.move) fun c c' => c' = c ∧ t.Follows r t' c

namespace Script

variable {r : Room} {t t' : Tree} {ids : List NodeId}

theorem Follows.eq_map {items items' : List Item} (h : Follows r t t' items items') :
    items' = items.map (Item.moved r.move) := by
  refine Likes.eq_map (fun s s' hs => ?_) (fun c c' hc => congrArg Item.child hc.1) h
  cases s <;> cases s' <;> first | exact hs.elim | skip
  · exact congrArg (fun p => Item.stroke (.goto p)) hs
  · exact congrArg (fun text => Item.stroke (.write text)) (Eq.symm hs)
  · exact congrArg (fun p => Item.stroke (.sep p)) hs
  · obtain ⟨rfl, rfl, rfl⟩ := hs
    rfl

theorem start_of_follows {c c' : NodeId} (h : c' = c ∧ t.Follows r t' c) : t'.start? c' = (t.start? c).map r.move :=
  h.1 ▸ h.2.start_eq

theorem stop_of_follows {c c' : NodeId} (h : c' = c ∧ t.Follows r t' c) : t'.stop? c' = (t.stop? c).map r.move :=
  h.1 ▸ h.2.stop_eq

theorem forall₂_of_follows (h : ∀ c ∈ ids, t.Follows r t' c) :
    List.Forall₂ (fun c c' => c' = c ∧ t.Follows r t' c) ids ids := List.forall₂_same.2 fun c hc => ⟨rfl, h c hc⟩

theorem moved_separatedAll (h : ∀ c ∈ ids, t.Follows r t' c) :
    separatedAll t' ids = (separatedAll t ids).map (Item.moved r.move) :=
  Follows.eq_map (likes_separatedAll (fun _ _ => start_of_follows) (forall₂_of_follows h))

theorem moved_kids (h : ∀ c ∈ ids, t.Follows r t' c) : kids t' ids = (kids t ids).map (Item.moved r.move) :=
  Follows.eq_map (likes_kids (fun _ _ => start_of_follows) (forall₂_of_follows h))

theorem moved_classHead {d : ClassDecl} {members : List NodeId}
    (h : ∀ c ∈ (Kind.classDecl { d with members := [] }).children, t.Follows r t' c) :
    classHead t' { d with name := { d.name with loc := r.loc d.name.loc }, lbrace := r.loc d.lbrace, members } =
      (classHead t d).map (Item.moved r.move) := by
  simp only [Kind.children, Kind.slots, List.flatMap_cons, Slot.children, List.mem_append, or_imp, forall_and] at h
  obtain ⟨hannotations, hsupers, hinters, -⟩ := h
  exact Follows.eq_map (likes_classHead (A := fun p p' => p' = p.map r.move) rfl (fun _ _ => start_of_follows)
    (fun _ _ => stop_of_follows) (forall₂_of_follows hannotations) (forall₂_of_follows hsupers)
    (forall₂_of_follows hinters) (Room.start?_loc r _) (Room.start?_loc r _))

section

variable {q : Option Pos} {n : Nat}

theorem map_left_moved (h : ∀ p ∈ q, r.before (p.left n) = r.before p) :
    (q.map r.move).map (·.left n) = (q.map (·.left n)).map r.move := by
  rw [Option.map_map, Option.map_map]
  exact Option.map_congr fun p hp => (Room.move_left (h p hp)).symm

theorem map_right_moved (h : ∀ p ∈ q, r.before (p.right n) = r.before p) :
    (q.map r.move).map (·.right n) = (q.map (·.right n)).map r.move := by
  rw [Option.map_map, Option.map_map]
  exact Option.map_congr fun p hp => (Room.move_right (h p hp)).symm

theorem periodPos_moved {l : Loc} (h : ∀ p ∈ l.start?, r.before (p.left 1) = r.before p) :
    periodPos (r.loc l) = (periodPos l).map r.move := by
  have hfilter : (l.start?.map r.move).filter (1 < ·.col) = (l.start?.filter (1 < ·.col)).map r.move := by
    rw [Option.filter_map]
    rfl
  unfold periodPos
  rw [Room.start?_loc, hfilter]
  exact map_left_moved fun p hp => h p (Option.filter_eq_some_iff.1 hp).1

end

end Script

/-- **No room is made within the tokens of a node whose places are counted from its positions.** -/
structure Node.Rigid (r : Room) (t : Tree) (n : Node) : Prop where
  close : ∀ text, n.kind.closer? = some text → ∀ q ∈ n.loc.stop?, r.before (q.left text.length) = r.before q
  name : ∀ l ∈ n.kind.innerLocs, ∀ q ∈ l.start?, r.before (q.left 1) = r.before q
  keyword : ∀ word rest, n.script t = write word ++ rest → ∀ q ∈ n.loc.start?,
    r.before (q.right word.length) = r.before q
  paren : ∀ front c back, n.script t = front ++ .child c :: (write ")" ++ back) → ∀ q ∈ t.stop? c,
    r.before (q.right 1) = r.before q

/-- **The script of a node moves with it.** -/
theorem Node.script_moved {r : Room} {t t' : Tree} {n n' : Node} (hloc : n'.loc = r.loc n.loc)
    (hkind : n'.kind = n.kind.mapInnerLocs (fun _ => r.loc)) (hchildren : ∀ c ∈ n.kind.children, t.Follows r t' c)
    (h : n.Rigid r t) : n'.script t' = (n.script t).map (Item.moved r.move) := by
  refine Follows.eq_map (Node.script_like (f := fun _ => r.loc)
    { kind_eq := by rw [hkind, Kind.withSlots_slots]
      related := Slot.related_refl fun c hc => ⟨rfl, hchildren c hc⟩
      start := fun _ _ => start_of_follows
      stop := fun _ _ => stop_of_follows
      no_next := rfl
      no_prev := rfl
      inner := fun {i l} hl => ⟨Room.start?_loc r l, Room.stop?_loc r l,
        periodPos_moved (h.name l (List.mem_of_getElem? hl))⟩
      closing := fun text htext => ?_
      keyword := fun word rest hscript => ?_
      paren := fun front c back c' hscript hc => ?_ })
  · rw [hloc, Room.stop?_loc]
    exact map_left_moved (h.close text htext)
  · rw [hloc]
    unfold keywordStop
    rw [Room.start?_loc]
    exact map_right_moved (h.keyword word rest hscript)
  · rw [stop_of_follows hc]
    exact map_right_moved (h.paren front c back hscript)

end UniformAccess
