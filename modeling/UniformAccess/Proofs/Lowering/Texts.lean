import UniformAccess.Proofs.Lowering.Kept
import UniformAccess.Proofs.Printing.Place
/-!
# The text of the members of a property

The strokes of the members, as `Worded` has them, are spelled out here. The one thing that depends on more than the
names is the space after a type: the pen leaves it out where there is a blank already, so that a type without a text
gets no space after it (`spaced`). What comes before a type or an initial value never changes its text.
-/
namespace UniformAccess

/-! ## Text after text -/

/-- The space that a separation leaves after the character `c`. -/
def gap (c : Option Char) : String := if c = none ∨ c = some ' ' ∨ c = some '\n' then "" else " "

/-- A text after the character `c`, and what a separation leaves after it. -/
def spaced (c : Char) (text : String) : String := text ++ gap (lastAfter (some c) text)

theorem gap_of_not_blank {c : Option Char} (h : ¬ (c = none ∨ c = some ' ' ∨ c = some '\n')) : gap c = " " := if_neg h

/-- After a separation it does not matter what was there before. -/
theorem spell_sep (c : Option Char) (p : Option Pos) (ss : List Stroke) :
    spell c (.sep p :: ss) = gap c ++ spell none ss := by
  rw [spell_cons]
  show gap c ++ spell (lastAfter c (gap c)) ss = _
  congr 1
  unfold gap
  split
  · rename_i hblank
    exact spell_of_blank hblank ss
  · exact spell_of_blank (.inr (.inl rfl)) ss

theorem spell_spaced (c : Char) (ss ss' : List Stroke) (p : Option Pos) :
    spell (some c) (ss ++ .sep p :: ss') = spaced c (spell (some c) ss) ++ spell none ss' := by
  rw [spell_append, spell_sep, ← String.append_assoc]
  rfl

namespace Lowering

open UniformAccess.Tree

variable {t t₀ t' : Tree} {o : LoweringOptions} {d : PropertyDecl} {p x : NodeId} {id : Option NodeId} {strict : Prop}
  {done : List (NodeId × Synthesized)} {entry : NodeId → Synthesized}

/-! ## The texts -/

/-- What a member begins with. -/
def headText (v : Visibility) (isStatic : Bool) : String := v.text ++ " " ++ if isStatic then "static " else ""

/-- The field that holds the value, for a type and an initial value with these texts. -/
def backingText (o : LoweringOptions) (d : PropertyDecl) (ty : String) (initial : Option String) : String :=
  headText .priv d.modifiers.isStatic ++ spaced ' ' ty ++ o.backingName d.name.name ++
    (match initial with
      | some value => " = " ++ value
      | none => "") ++ ";"

/-- The field that holds the observer, for an argument with this text. -/
def observerText (o : LoweringOptions) (d : PropertyDecl) (arg : String) : String :=
  headText (visible d none) d.modifiers.isStatic ++ o.observerName ++ "<" ++ arg ++ "> " ++
    o.observerFieldName d.name.name ++ ";"

def setterBodyText (backing observer value : String) : String :=
  "\x7b if (" ++ observer ++ " != null) " ++ observer ++ ".changed(" ++ backing ++ ", " ++ value ++ "); " ++ backing ++
    " = " ++ value ++ "; \x7d"

def setterText (o : LoweringOptions) (d : PropertyDecl) (ty : String) : String :=
  headText (visible d d.setter.visibility) d.modifiers.isStatic ++ "void set" ++ capitalize d.name.name ++ "(" ++
    spaced '(' ty ++ o.paramName ++ ") " ++
    setterBodyText (o.backingName d.name.name) (o.observerFieldName d.name.name) o.paramName

def getterText (o : LoweringOptions) (d : PropertyDecl) (ty : String) : String :=
  headText (visible d d.getter.visibility) d.modifiers.isStatic ++ spaced ' ' ty ++ "get" ++ capitalize d.name.name ++
    "() \x7b return " ++ o.backingName d.name.name ++ "; \x7d"

/-- The text of the class that stands for a type: its own, but for a primitive type. -/
def boxedText (t : Tree) (ty : NodeId) : String :=
  match t.kind? ty with
  | some (.primitiveType p) => p.boxed
  | _ => t.render ty

/-! ## Spelling them -/

theorem spell_head (v : Visibility) (isStatic : Bool) (ss : List Stroke) :
    spell none (modifierStrokes v isStatic ++ ss) = headText v isStatic ++ spell (some ' ') ss := by
  have hhead : spell none (modifierStrokes v isStatic) = headText v isStatic := by
    cases v <;> cases isStatic <;> decide
  have hlast : lastAfter none (headText v isStatic) = some ' ' := by
    cases v <;> cases isStatic <;> decide
  rw [spell_append, hhead, hlast]

theorem spell_field (v : Visibility) (isStatic : Bool) (ty var : List Stroke) :
    spell none (fieldStrokes v isStatic ty var) =
    headText v isStatic ++ spaced ' ' (spell none ty) ++ spell none var ++ ";" := by
  unfold fieldStrokes token
  rw [spell_goto, spell_head, spell_spaced, spell_of_blank (.inr (.inl rfl)), spell_append, spell_goto,
    spell_mark (by decide) (by decide), spell_nil, String.append_empty]
  simp only [String.append_assoc]

theorem spell_setterBody (backing observer value : String) :
    spell none (setterBodyStrokes backing observer value) = setterBodyText backing observer value := by
  unfold setterBodyStrokes setterBodyText token
  simp (disch := decide) only [List.cons_append, List.nil_append, spell_goto, spell_sep, spell_write, spell_mark,
    spell_glue, gap_of_not_blank, spell_nil]
  rw [← String.toList_inj]
  simp [Glue.padded, Glue.leading, Glue.spaced]

theorem spell_getterBody (backing : String) :
    spell none (getterBodyStrokes backing) = "\x7b return " ++ backing ++ "; \x7d" := by
  unfold getterBodyStrokes token
  simp (disch := decide) only [List.cons_append, List.nil_append, spell_goto, spell_sep, spell_write, spell_mark,
    gap_of_not_blank, spell_nil]
  rw [← String.toList_inj]
  simp

theorem spell_observer (arg : List Stroke) (h : ∀ next, .sep next ∉ arg) :
    spell none (observerStrokes o d arg) = observerText o d (spell none arg) := by
  have hty : spell none (.goto none :: .write o.observerName :: .write "<" :: (arg ++ [.write ">"])) =
      o.observerName ++ "<" ++ spell none arg ++ ">" := by
    rw [spell_goto, spell_write rfl, spell_mark (by decide) (by decide), spell_append,
      spell_mark (by decide) (by decide), spell_of_not_ident (by decide) h, spell_nil, String.append_empty]
    simp only [String.append_assoc]
  have hgap : ∀ text : String, spaced ' ' (text ++ ">") = text ++ "> " := fun text => by
    unfold spaced
    rw [lastAfter_append, lastAfter_of_ne (by decide), gap_of_not_blank (by decide), String.append_assoc]
    rfl
  unfold observerStrokes token observerText
  rw [spell_field, hty, hgap, spell_goto, spell_goto, spell_write rfl, spell_nil, String.append_empty]
  simp only [String.append_assoc]

theorem spell_setter (ty : List Stroke) (h : ∀ next, .sep next ∉ ty) :
    spell none (setterStrokes o d ty) = setterText o d (spell none ty) := by
  unfold setterStrokes token
  simp only [List.cons_append, List.nil_append, List.append_assoc]
  rw [spell_goto, spell_head, spell_goto, spell_write (by decide), spell_sep, gap_of_not_blank (by decide), spell_goto,
    spell_write rfl, spell_glue (by decide) (by decide), spell_goto,
    show (Glue.padded ⟨false, "(", false⟩).toList.getLast? = some '(' by decide, spell_spaced,
    spell_of_not_ident (by decide) h, spell_goto, spell_write rfl, spell_mark (by decide) (by decide), spell_sep,
    gap_of_not_blank (by decide), spell_setterBody]
  rw [← String.toList_inj]
  simp [setterText, setterName, Glue.padded, Glue.leading]

theorem spell_getter (ty : List Stroke) : spell none (getterStrokes o d ty) = getterText o d (spell none ty) := by
  unfold getterStrokes token
  simp only [List.cons_append, List.nil_append]
  rw [spell_goto, spell_head, spell_spaced, spell_of_blank (.inr (.inl rfl)), spell_goto, spell_write rfl,
    spell_mark (by decide) (by decide), spell_mark (by decide) (by decide), spell_sep, gap_of_not_blank (by decide),
    spell_getterBody]
  rw [← String.toList_inj]
  simp [getterText, getterName]

/-! ## Types -/

/-- Whether a node is a primitive type, a class type or an array type. -/
def isType (t : Tree) (x : NodeId) : Bool :=
  match t.kind? x with
  | some (.primitiveType _) | some (.classType ..) | some (.arrayType ..) => true
  | _ => false

theorem sep_not_mem_listAfter (t : Tree) (next : Option Pos) : ∀ (prev : NodeId) (ids : List NodeId),
    .stroke (.sep next) ∉ Script.listAfter t prev ids
  | _, [], h => by cases h
  | _, id :: ids, h => by
    simp only [Script.listAfter, Script.glue, List.cons_append, List.nil_append, List.mem_cons, reduceCtorEq,
      Item.stroke.injEq, false_or] at h
    exact sep_not_mem_listAfter t next id ids h

theorem sep_not_mem_script {node : Node} (hx : isType t x = true) (hnode : t.get? x = some node) (next : Option Pos) :
    .stroke (.sep next) ∉ node.script t := by
  obtain ⟨parent, loc, kind⟩ := node
  unfold isType kind? at hx
  rw [hnode, Option.map_some] at hx
  cases kind with
  | primitiveType p => simp [Node.script, Script.write]
  | arrayType elem dims => simp [Node.script, Script.write]
  | classType scope name args =>
    cases scope <;> cases args with
    | nil => simp [Node.script, Script.write]
    | cons arg args => simp [Node.script, Script.write, Script.list, sep_not_mem_listAfter]
  | _ => cases hx

/-- **Types leave no spaces of their own.** -/
theorem sep_not_mem_spelling (h : ∀ y, t.Reaches x y → isType t y = true) (next : Option Pos) :
    .sep next ∉ t.spelling x := fun hmem => by
  obtain ⟨s, hs, hunplaced⟩ := List.mem_map.1 hmem
  obtain ⟨e, he, hes⟩ := List.mem_filterMap.1 hs
  cases e with
  | stroke s' =>
    cases hes
    obtain ⟨y, node, hy, hnode, rfl | hscript⟩ := exists_of_stroke_mem he
    · cases hunplaced
    · cases s with
      | sep next' => exact sep_not_mem_script (h y hy) hnode next' hscript
      | _ => cases hunplaced
  | _ => cases hes

theorem spell_boxed {k : Kind} (hk : t.bare? x = some k) :
    spell none (boxedStrokes k (t.spelling x)) = boxedText t x := by
  obtain ⟨k', hk', rfl⟩ := exists_kind?_of_bare? hk
  unfold boxedText
  rw [hk']
  cases k' with
  | primitiveType p => exact (spell_goto ..).trans ((spell_write rfl ..).trans String.append_empty)
  | _ => exact (render_eq_spell t x).symm

theorem sep_not_mem_boxed {k : Kind} {ss : List Stroke} (h : ∀ next, .sep next ∉ ss) (next : Option Pos) :
    .sep next ∉ boxedStrokes k ss := by
  cases k with
  | primitiveType p => simp [boxedStrokes, token]
  | _ => exact h next

/-! ## Initial values -/

/-- **The initial value of a property is not taken out**, if no property lies in it and the property lies in none. -/
theorem Unnested.not_takesOut {q v : NodeId} (hflat : Unnested t) (hp : t.Proper) (hd : t.kind? p = some (.property d))
    (hv : v ∈ d.initial) (hx : t.Reaches v x) (hq : t.isProperty q = true) : ¬ TakesOut t q x := fun hout => by
  have hprop := isProperty_iff.2 ⟨d, hd⟩
  have hchildren := children_of_kind? hd
  have hmem : v ∈ t.children p := by
    rw [hchildren, (children_property_perm d).mem_iff]
    exact List.mem_append_left _ (List.mem_append_left _ (Option.mem_toList.2 hv))
  have hpx : t.Reaches p x := hx.head hmem
  have hqx : t.Reaches q x := by
    rcases hout with rfl | ⟨d', hd', g, hg, hgx⟩
    · exact .refl
    · exact hgx.head (by
        show g ∈ t.children q
        rw [children_of_kind? hd']
        exact mem_children_of_mem_doomed hg)
  obtain rfl : q = p := by
    rcases hp.forest.chain hqx hpx with hqp | hpq
    · exact hflat q p hq hprop hqp
    · exact (hflat p q hprop hq hpq).symm
  rcases hout with rfl | ⟨d', hd', g, hg, hgx⟩
  · exact hp.forest.acyclic x (Relation.TransGen.head' hmem hx)
  · obtain rfl : d = d' := Kind.property.inj (Option.some.inj (hd.symm.trans hd'))
    -- the value stands in one place of the property only
    obtain rfl := hp.forest.sibling_unique hmem (hchildren ▸ mem_children_of_mem_doomed hg) hx hgx
    have hnd := hp.single q
    rw [hchildren, (children_property_perm d).nodup_iff] at hnd
    exact (List.nodup_append.1 hnd).2.2 v (List.mem_append_left _ (Option.mem_toList.2 hv)) v hg rfl

section

variable (hp : t.Proper) (hbegun : Begun o t id t₀) (hd : t.kind? p = some (.property d))
include hp hbegun hd

/-- The import does not change the type of a property. -/
theorem Begun.type_eq : t₀.bare? d.ty = t.bare? d.ty ∧ t₀.spelling d.ty = t.spelling d.ty := by
  have hmem : d.ty ∈ t.children p := by
    rw [children_of_kind? hd]
    exact mem_children_of_mem_doomed List.mem_cons_self
  have hsame : ∀ y, t.Reaches d.ty y → t₀.bare? y = t.bare? y := fun y hy => by
    unfold bare? kind?
    rw [hbegun.get?_eq (hp.forest.contains_of_reaches (hp.contained p d.ty hmem) hy) fun hyr => ?_]
    have hroot := hp.forest.eq_of_reaches_root List.mem_cons_self (hyr ▸ hy)
    exact hp.forest.free p d.ty hmem (hroot ▸ List.mem_cons_self)
  exact ⟨hsame d.ty .refl, (strokes_congr hp.forest.acyclic hsame (hbegun.proper hp).forest.acyclic).symm⟩

/-- **The initial value of a property is written as it was**, and all of it is still there. -/
theorem Progress.initial_eq {v : NodeId} (hflat : Unnested t)
    (hin : ∀ q, t.isProperty q = true → ∃ c, holdsMember t c q = true) (hdone : done.map (·.1) = order t)
    (hentry : ∀ e ∈ done, e.2 = entry e.1) (h : Progress o strict t₀ done t') (hv : v ∈ d.initial) :
    t'.contains v = true ∧ t'.spelling v = t.spelling v := by
  have hmem : v ∈ t.children p := by
    rw [children_of_kind? hd, (children_property_perm d).mem_iff]
    exact List.mem_append_left _ (List.mem_append_left _ (Option.mem_toList.2 hv))
  have hstays : ∀ y, t.Reaches v y → t'.contains y = true ∧ t'.bare? y = t.bare? y := fun y hy => by
    obtain ⟨hyc, hsurvives⟩ := h.survives hp hin hdone hbegun hentry
      (hp.forest.contains_of_reaches (hp.contained p v hmem) hy) fun q hq => hflat.not_takesOut hp hd hv hy hq
    refine ⟨hyc, ?_⟩
    cases hsurvives with
    | unit u root =>
      have hroot := hp.forest.eq_of_reaches_root List.mem_cons_self (root ▸ hy)
      exact absurd (hroot ▸ List.mem_cons_self) (hp.forest.free p v hmem)
    | owner decl isOwner => exact absurd (hy.head hmem) (hflat.free hp isOwner p (isProperty_iff.2 ⟨d, hd⟩))
    | other _ after => exact after
  exact ⟨(hstays v .refl).1, (strokes_congr hp.forest.acyclic (fun y hy => (hstays y hy).2) h.forest.acyclic).symm⟩

end

/-! ## The members -/

theorem render_backing {ss : List Stroke} {n : Nat} {b : NodeId} (hac : t'.Acyclic) (h : IsBacking o d ss n t' b)
    (hv : ∀ v ∈ d.initial, t'.contains v = true ∧ t'.spelling v = t.spelling v)
    (hc : ∀ v y, t'.contains v = true → t'.Reaches v y → t'.contains y = true) :
    t'.render b = backingText o d (spell none ss) (d.initial.map t.render) := by
  obtain ⟨ty, var, -, -, hk, hkvar, hty⟩ := h
  have hty := hty.keep (fun _ _ _ => rfl) (Nat.zero_le _)
  have hfield : ∀ {vs : List Stroke}, Spells 0 t' [.child var] vs →
      t'.render b =
        headText .priv d.modifiers.isStatic ++ spaced ' ' (spell none ss) ++ spell none vs ++ ";" := fun hvar => by
    have hb := Spells.child (Nat.zero_le _) hk (spells_field hty hvar) .nil
    rw [List.append_nil] at hb
    rw [hb.render_eq hac]
    exact spell_field ..
  unfold backingText
  cases hinit : d.initial with
  | none =>
    rw [hinit] at hkvar
    have hvar : Spells 0 t' [.child var] (.goto none :: token (o.backingName d.name.name)) :=
      .child (Nat.zero_le _) hkvar (.stroke _ (.stroke _ .nil)) .nil
    rw [hfield hvar, spell_goto, token, spell_goto, spell_write rfl]
    simp
  | some v =>
    rw [hinit] at hkvar
    obtain ⟨hvc, hspelling⟩ := hv v hinit
    have hvalue : Spells 0 t' [.child v] (t'.spelling v) := .of_acyclic hac fun y hy => ⟨Nat.zero_le _, hc v y hvc hy⟩
    rw [hspelling] at hvalue
    have hvar : Spells 0 t' [.child var]
        (.goto none :: (token (o.backingName d.name.name) ++ .glue (.spaced "=") none none :: t.spelling v)) := by
      have hvar := Spells.child (Nat.zero_le _) hkvar (.stroke _ (.stroke _ (.stroke _ (hvalue.cons_child .nil)))) .nil
      rw [List.append_nil, List.append_nil] at hvar
      exact hvar
    have hpadded : (Glue.spaced "=").padded = " = " := by decide
    have hblank : " = ".toList.getLast? = some ' ' := by decide
    rw [hfield hvar, spell_goto, token, List.cons_append, spell_goto, List.cons_append, spell_write rfl,
      List.nil_append, spell_glue (by decide) (by decide), hpadded, hblank, spell_of_blank (.inr (.inl rfl)),
      ← render_eq_spell, Option.map_some]
    simp only [String.append_assoc]

/-- **What the members of a property say.** Their texts are put together from the names, the texts of the type and of
the initial value, and nothing else: neither where the property stands nor what is around it matters. -/
theorem lower_writes_members {r : Lowered} (hp : t.Proper) (hflat : Unnested t) (hlower : lower o t = .ok r t') :
    ∃ entry : NodeId → Synthesized, r.members = (order t).map entry ∧
      ∀ p d, t.kind? p = some (.property d) → (∀ x, t.Reaches d.ty x → isType t x = true) →
        t'.render (entry p).backing = backingText o d (t.render d.ty) (d.initial.map t.render) ∧
        t'.render (entry p).observer = observerText o d (boxedText t d.ty) ∧
        (d.setter.body = none → t'.render (entry p).setter = setterText o d (t.render d.ty)) ∧
        (d.getter.body = none → t'.render (entry p).getter = getterText o d (t.render d.ty)) := by
  have hin := fun p hprop => exists_holdsMember_of_lower (p := p) hp hlower hprop
  rcases turns_of_lower hp hlower with ⟨hnone, rfl, rfl⟩ | ⟨t₀, done, -, hbegun, hdone, hmembers, hturns⟩
  · refine ⟨fun _ => ⟨⟨0⟩, ⟨0⟩, ⟨0⟩, ⟨0⟩⟩, ?_, fun p d hd => ?_⟩
    · unfold order
      rw [hnone]
      rfl
    · have hprop : p ∈ properties t' := (mem_properties hp).2 (isProperty_iff.2 ⟨d, hd⟩)
      rw [hnone] at hprop
      cases hprop
  · obtain ⟨entry, hentry⟩ := exists_entry (hdone ▸ nodup_order hp)
    have hprogress := hturns.progress
    have hac := hprogress.forest.acyclic
    refine ⟨entry, ?_, fun p d hd htypes => ?_⟩
    · rw [hmembers, ← hdone, List.map_map]
      exact List.map_congr_left fun e he => hentry e he
    · obtain ⟨e, he, rfl⟩ := (mem_done hp hin hdone).2 (isProperty_iff.2 ⟨d, hd⟩)
      obtain ⟨hkind, hspelling⟩ := hbegun.type_eq hp hd
      have htyc : t.contains d.ty = true := by
        refine hp.contained e.1 d.ty ?_
        rw [children_of_kind? hd]
        exact mem_children_of_mem_doomed List.mem_cons_self
      obtain ⟨node, hnode⟩ := contains_iff.1 htyc
      have hk : t.bare? d.ty = some node.kind.bare := bare?_of_kind? (by unfold kind?; rw [hnode]; rfl)
      have hworded := hprogress.worded e he d _ (hbegun.kind?_property hp hd) (hkind.trans hk)
      rw [hspelling] at hworded
      have hsep := sep_not_mem_spelling htypes
      rw [← hentry e he, render_eq_spell t d.ty]
      refine ⟨?_, ?_, fun hbody => ?_, fun hbody => ?_⟩
      · exact render_backing hac hworded.backing
          (fun v hv => hprogress.initial_eq hp hbegun hd hflat hin hdone hentry hv)
          fun v y => hprogress.forest.contains_of_reaches
      · rw [hworded.observer.render_eq hac, spell_observer _ (sep_not_mem_boxed hsep), spell_boxed hk]
      · rw [(hworded.setter hbody).render_eq hac, spell_setter _ hsep]
      · rw [(hworded.getter hbody).render_eq hac, spell_getter]

/-- The tree of `class Tally { static List<int[]> log { protected get; set; def = a + 1 } }`. -/
def tally : Tree :=
  { root := ⟨0⟩
    cells := #[
      some ⟨none, .synthetic, .unit { types := [⟨1⟩] }⟩,
      some ⟨some ⟨0⟩, .span ⟨⟨1, 1⟩, ⟨1, 75⟩⟩,
        .classDecl { name := .placed ⟨1, 7⟩ "Tally", lbrace := .point ⟨1, 13⟩, members := [⟨2⟩] }⟩,
      some ⟨some ⟨1⟩, .span ⟨⟨1, 15⟩, ⟨1, 73⟩⟩,
        .property { modifiers := { isStatic := true }, ty := ⟨3⟩, name := .placed ⟨1, 34⟩ "log",
                    lbrace := .point ⟨1, 38⟩,
                    initial := some ⟨6⟩, getter := { loc := .point ⟨1, 40⟩, visibility := some .prot },
                    setter := { loc := .point ⟨1, 55⟩ } }⟩,
      some ⟨some ⟨2⟩, .span ⟨⟨1, 22⟩, ⟨1, 33⟩⟩, .classType none "List" [⟨4⟩]⟩,
      some ⟨some ⟨3⟩, .span ⟨⟨1, 27⟩, ⟨1, 32⟩⟩, .arrayType ⟨5⟩ 1⟩,
      some ⟨some ⟨4⟩, .span ⟨⟨1, 27⟩, ⟨1, 30⟩⟩, .primitiveType .int⟩,
      some ⟨some ⟨2⟩, .span ⟨⟨1, 66⟩, ⟨1, 71⟩⟩, .binary ⟨7⟩ .add ⟨8⟩⟩,
      some ⟨some ⟨6⟩, .span ⟨⟨1, 66⟩, ⟨1, 67⟩⟩, .nameExpr "a"⟩,
      some ⟨some ⟨6⟩, .span ⟨⟨1, 70⟩, ⟨1, 71⟩⟩, .literal (.int "1")⟩] }

theorem lower_writes_members_tally :
    tally.Proper ∧ Unnested tally ∧ ∃ r t' s, lower {} tally = .ok r t' ∧ r.members = [s] ∧
    t'.render s.backing = "private static List<int[]> _log = a + 1;" ∧
    t'.render s.observer = "public static PropertyObserver<List<int[]>> logObserver;" ∧
    t'.render s.setter = "public static void setLog(List<int[]> value) \x7b if (logObserver != null) " ++
      "logObserver.changed(_log, value); _log = value; \x7d" ∧
    t'.render s.getter = "protected static List<int[]> getLog() \x7b return _log; \x7d" := by
  have hp : tally.Proper := by decide
  have hflat : Unnested tally := (isUnnested_iff hp).1 (by decide)
  have hok : (match lower {} tally with
    | .ok _ _ => true
    | .error _ _ => false) = true := by decide +kernel
  obtain ⟨r, t', hlower⟩ : ∃ r t', lower {} tally = .ok r t' := by
    generalize lower {} tally = run at hok
    cases run with
    | ok r t' => exact ⟨r, t', rfl⟩
    | error => cases hok
  obtain ⟨entry, hmembers, htexts⟩ := lower_writes_members hp hflat hlower
  have htypes : ∀ x, tally.Reaches ⟨3⟩ x → isType tally x = true := fun x hx => by
    rw [← hp.forest.mem_descendants (by decide)] at hx
    revert x
    decide
  obtain ⟨hbacking, hobserver, hsetter, hgetter⟩ := htexts ⟨2⟩ _ rfl htypes
  refine ⟨hp, hflat, r, t', entry ⟨2⟩, hlower, ?_, hbacking.trans ?_, hobserver.trans ?_, (hsetter rfl).trans ?_,
    (hgetter rfl).trans ?_⟩
  · rw [hmembers, (by decide : order tally = [⟨2⟩])]
    rfl
  all_goals decide +kernel

/-- The tree of a class with a property `x` whose type is a class without a name. -/
def nameless : Tree :=
  { root := ⟨0⟩
    cells := #[
      some ⟨none, .synthetic, .unit { types := [⟨1⟩] }⟩,
      some ⟨some ⟨0⟩, .synthetic, .classDecl { name := .synthetic "Box", lbrace := .synthetic, members := [⟨2⟩] }⟩,
      some ⟨some ⟨1⟩, .synthetic, .property { ty := ⟨3⟩, name := .synthetic "x", lbrace := .synthetic }⟩,
      some ⟨some ⟨2⟩, .synthetic, .classType none "" []⟩] }

/-- **A type without a text leaves one space, not two.** -/
theorem render_backing_nameless_ne :
    nameless.Proper ∧ Unnested nameless ∧ (∀ x, nameless.Reaches ⟨3⟩ x → isType nameless x = true) ∧
    ∃ r t' s, lower {} nameless = .ok r t' ∧ r.members = [s] ∧
      t'.render s.backing ≠ "private " ++ nameless.render ⟨3⟩ ++ " " ++ "_x" ++ ";" := by
  have hp : nameless.Proper := by decide
  have hrun : (match lower {} nameless with
    | .ok r t' => r.members.map (fun s => t'.render s.backing)
    | .error _ _ => []) = ["private _x;"] := by decide +kernel
  refine ⟨hp, (isUnnested_iff hp).1 (by decide), fun x hx => ?_, ?_⟩
  · rw [← hp.forest.mem_descendants (by decide)] at hx
    revert x
    decide
  · generalize lower {} nameless = run at hrun
    cases run with
    | ok r t' =>
      obtain ⟨s, hs, hrender⟩ := List.map_eq_singleton_iff.1 hrun
      refine ⟨r, t', s, rfl, hs, ?_⟩
      rw [hrender]
      decide +kernel
    | error => cases hrun

end Lowering

end UniformAccess
