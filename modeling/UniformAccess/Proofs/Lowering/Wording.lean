import UniformAccess.Proofs.Lowering.Setter
import UniformAccess.Proofs.Printing.Spelling
/-!
# How the members of a property are spelled

The members of a property are made of new nodes, copies of its type, and its initial value. `Worded` says by which
strokes each of them is written; the initial value is left open, since it is no new node. Every step of lowering a
property builds what it says (`ends_lowerProperty_worded`).
-/
namespace UniformAccess.Tree

/-- What is built beside all roots is made of new nodes. -/
theorem Built.size_le_of_reaches {Q : Kind → Prop} {t t' : Tree} {roots : List NodeId} {a y : NodeId}
    (hf : Forest t roots) (h : Built Q roots t [a] t') (hy : t'.Reaches a y) : t.cells.size ≤ y.index := by
  by_contra hlt
  have hyc := h.forest.contains_of_reaches (h.forest.contained a List.mem_cons_self) hy
  rw [contains_congr (h.bare_eq y (Nat.lt_of_not_le hlt))] at hyc
  obtain ⟨r, hr, hry⟩ := hf.reached y hyc
  obtain rfl := h.forest.root_unique List.mem_cons_self (List.mem_cons_of_mem _ hr) hy
    ((h.reaches_iff (hf.contained r hr)).2 hry)
  exact (List.nodup_cons.1 h.forest.nodup).1 hr

end UniformAccess.Tree

namespace UniformAccess.Lowering

open UniformAccess.Tree

/-! ## Strokes -/

/-- The strokes of a node that is a single token. -/
def token (text : String) : List Stroke := [.goto none, .write text]

def modifierStrokes (v : Visibility) (isStatic : Bool) : List Stroke :=
  .write v.text :: ((if isStatic then [.write "static"] else []) ++ [.sep none])

/-- A field of one variable, of the type and the variable with the given strokes. -/
def fieldStrokes (v : Visibility) (isStatic : Bool) (ty var : List Stroke) : List Stroke :=
  .goto none :: (modifierStrokes v isStatic ++ (ty ++ .sep none :: (var ++ token ";")))

def setterBodyStrokes (backing observer value : String) : List Stroke :=
  let cond := .goto none :: (token observer ++ .glue (.spaced "!=") none none :: token "null")
  let call := .goto none :: (token observer ++ (token "." ++ (token "changed" ++ .glue ⟨false, "(", false⟩ none none ::
    (token backing ++ .glue ⟨false, ",", true⟩ none none :: (token value ++ token ")")))))
  let notify := .goto none :: .write "if" :: .glue ⟨true, "(", false⟩ none none ::
    (cond ++ .write ")" :: .sep none :: .goto none :: (call ++ token ";"))
  let store :=
    .goto none :: .goto none :: (token backing ++ .glue (.spaced "=") none none :: (token value ++ token ";"))
  .goto none :: .write "\x7b" :: .sep none :: (notify ++ .sep none :: (store ++ .sep none :: token "\x7d"))

def getterBodyStrokes (backing : String) : List Stroke :=
  .goto none :: .write "\x7b" :: .sep none :: .goto none :: .write "return" :: .sep none ::
    (token backing ++ (token ";" ++ .sep none :: token "\x7d"))

/-- How visible a member is that is given this visibility of its own. -/
def visible (d : PropertyDecl) (own : Option Visibility) : Visibility := (own.or d.modifiers.visibility).getD .pub

/-- The type that stands for a type where a class is needed. -/
def boxedStrokes (k : Kind) (ty : List Stroke) : List Stroke :=
  match k with
  | .primitiveType p => token p.boxed
  | _ => ty

variable (o : LoweringOptions) (d : PropertyDecl)

def observerStrokes (arg : List Stroke) : List Stroke :=
  fieldStrokes (visible d none) d.modifiers.isStatic
    (.goto none :: .write o.observerName :: .write "<" :: (arg ++ [.write ">"]))
    (.goto none :: token (o.observerFieldName d.name.name))

def setterStrokes (ty : List Stroke) : List Stroke :=
  .goto none :: (modifierStrokes (visible d d.setter.visibility) d.modifiers.isStatic ++ (token "void" ++ .sep none ::
    (token (setterName d.name.name) ++ .glue ⟨false, "(", false⟩ none none ::
      (.goto none :: (ty ++ .sep none :: token o.paramName) ++ .write ")" :: .sep none ::
        setterBodyStrokes (o.backingName d.name.name) (o.observerFieldName d.name.name) o.paramName))))

def getterStrokes (ty : List Stroke) : List Stroke :=
  .goto none :: (modifierStrokes (visible d d.getter.visibility) d.modifiers.isStatic ++ (ty ++ .sep none ::
    (token (getterName d.name.name) ++ .write "(" :: .write ")" :: .sep none ::
      getterBodyStrokes (o.backingName d.name.name))))

variable {o d} {t t' : Tree} {n n' : Nat} {id ty : NodeId} {k : Kind} {ss : List Stroke} {s : Synthesized}

/-! ## What is said of the members -/

/-- **The field that holds the value**, of a type with the given strokes. -/
def IsBacking (o : LoweringOptions) (d : PropertyDecl) (ss : List Stroke) (n : Nat) (t : Tree) (id : NodeId) : Prop :=
  ∃ ty var, n ≤ id.index ∧ n ≤ var.index ∧
    t.bare? id = some (.field { modifiers := { visibility := some .priv, isStatic := d.modifiers.isStatic },
                                ty, vars := [var] }) ∧
    t.bare? var = some (.var (.synthetic (o.backingName d.name.name)) d.initial) ∧ Spells n t [.child ty] ss

/-- **How the members of a property are spelled** whose type is of kind `k` and has the strokes `ss`, and of what a
default setter is made. An accessor with a body of its own is left out. -/
structure Worded (o : LoweringOptions) (d : PropertyDecl) (k : Kind) (ss : List Stroke) (n : Nat) (t : Tree)
    (s : Synthesized) : Prop where
  backing : IsBacking o d ss n t s.backing
  observer : Spells n t [.child s.observer] (observerStrokes o d (boxedStrokes k ss))
  setter : d.setter.body = none → Spells n t [.child s.setter] (setterStrokes o d ss)
  getter : d.getter.body = none → Spells n t [.child s.getter] (getterStrokes o d ss)
  code : d.setter.body = none → IsDefaultSetter o d n t s.setter

section

variable (hkeep : ∀ x, n ≤ x.index → t.contains x = true → t'.bare? x = t.bare? x)
include hkeep

theorem IsBacking.keep (h : IsBacking o d ss n t id) (hn : n' ≤ n) : IsBacking o d ss n' t' id := by
  obtain ⟨ty, var, hid, hvar, hk, hkvar, hty⟩ := h
  refine ⟨ty, var, Nat.le_trans hn hid, Nat.le_trans hn hvar, ?_, ?_, hty.keep hkeep hn⟩
  · rw [hkeep id hid (contains_of_bare? hk), hk]
  · rw [hkeep var hvar (contains_of_bare? hkvar), hkvar]

theorem Worded.keep (h : Worded o d k ss n t s) (hn : n' ≤ n) : Worded o d k ss n' t' s :=
  ⟨h.backing.keep hkeep hn, h.observer.keep hkeep hn, fun hbody => (h.setter hbody).keep hkeep hn,
    fun hbody => (h.getter hbody).keep hkeep hn, fun hbody => (h.code hbody).keep hkeep hn⟩

end

/-! ## One node more -/

/-- **A new node is written by these strokes**, and what was said of other nodes stays true. -/
structure Spelled (n : Nat) (t : Tree) (a : NodeId) (ss : List Stroke) (t' : Tree) : Prop where
  spells : Spells n t' [.child a] ss
  size_le : n ≤ t'.cells.size
  keep : ∀ {items ss}, Spells n t items ss → Spells n t' items ss

theorem ends_alloc_spelled {loc : Loc} (hn : n ≤ t.cells.size) (hbare : k.bare = k) (h : Spells n t k.items ss) :
    Ends (alloc loc k : Edit LowerError NodeId) t (fun a t' => Spelled n t a (.goto none :: ss) t') := by
  have hkeep : ∀ {items ss}, Spells n t items ss → Spells n (t.add loc k) items ss := fun h =>
    h.keep (fun x _ hx => by rw [bare?_add, if_neg (ne_fresh_of_contains hx)]) (Nat.le_refl n)
  refine Tree.ends_alloc ⟨?_, by rw [size_add]; omega, hkeep⟩
  have hkind : (t.add loc k).bare? t.fresh = some k := by rw [bare?_add, if_pos rfl, hbare]
  have hnode := Spells.child (show n ≤ t.fresh.index from hn) hkind (hkeep h) .nil
  rwa [List.append_nil] at hnode

theorem ends_bareName_spelled (hn : n ≤ t.cells.size) (name : String) :
    Ends (bareName name) t (fun a t' => Spelled n t a (token name) t') :=
  ends_alloc_spelled hn rfl (.stroke _ .nil)

/-! ## Types -/

/-- **The type of a property, as it was at the start**: of kind `k` and with the strokes `ss`. -/
structure IsType (t : Tree) (ty : NodeId) (k : Kind) (ss : List Stroke) : Prop where
  forest : ∃ roots, Forest t roots
  kind : t.bare? ty = some k
  spelling : t.spelling ty = ss

theorem IsType.built {Q : Kind → Prop} {rest new : List NodeId} (h : IsType t ty k ss) (hb : Built Q rest t new t') :
    IsType t' ty k ss := by
  obtain ⟨used, hf⟩ := hb.source
  have hc := contains_of_bare? h.kind
  refine ⟨⟨_, hb.forest⟩, (hb.keep hc).trans h.kind, ?_⟩
  rw [← h.spelling]
  exact (strokes_congr hf.acyclic (fun y hy => hb.keep (hf.contains_of_reaches hc hy)) hb.forest.acyclic).symm

theorem ends_copyErased_spelled (hn : n ≤ t.cells.size) (h : IsType t ty k ss) :
    Ends (copyErased ty) t (fun a t' => Spelled n t a ss t') := by
  obtain ⟨roots, hf⟩ := h.forest
  have hc := contains_of_bare? h.kind
  have hcopies : CopiesTo (fun _ => True) t ty := ⟨hc, fun _ _ _ _ _ => trivial⟩
  unfold copyErased
  refine .bind (.adaptExcept (ends_copy hf hcopies)) fun a t₁ ⟨h₁, htwin⟩ => .bind_modify (.pure ?_)
  have hmoved := Moved.eraseLocs t₁ a
  have hkeep : ∀ x, t.contains x = true → (t₁.eraseLocs a).bare? x = t.bare? x := fun x hx =>
    (hmoved.bare_eq x).trans (h₁.keep hx)
  have hf₂ := hmoved.forest h₁.forest
  have hspelling : (t₁.eraseLocs a).spelling a = ss := by
    rw [← (h.built h₁).spelling]
    exact ((htwin.strokes_eq h₁.forest.acyclic).trans
      (strokes_congr h₁.forest.acyclic (fun y _ => hmoved.bare_eq y) hf₂.acyclic)).symm
  refine ⟨?_, ?_, fun hs => hs.keep (fun x _ hx => hkeep x hx) (Nat.le_refl n)⟩
  · rw [← hspelling]
    refine .of_acyclic hf₂.acyclic fun y hy => ⟨?_, ?_⟩
    · exact Nat.le_trans hn (h₁.size_le_of_reaches hf ((hmoved.reaches_iff).1 hy))
    · exact hf₂.contains_of_reaches (hf₂.contained a List.mem_cons_self) hy
  · rw [hmoved.size_eq]
    exact Nat.le_trans hn h₁.size_le

theorem ends_observerType_spelled (hn : n ≤ t.cells.size) (h : IsType t ty k ss) :
    Ends (observerType o ty) t (fun a t' => Spelled n t a
      (.goto none :: .write o.observerName :: .write "<" :: (boxedStrokes k ss ++ [.write ">"])) t') := by
  have hout : ∀ arg t₁, Spelled n t arg (boxedStrokes k ss) t₁ →
      Ends (alloc .synthetic (.classType none o.observerName [arg]) : Edit LowerError NodeId) t₁
        (fun a t' => Spelled n t a
          (.goto none :: .write o.observerName :: .write "<" :: (boxedStrokes k ss ++ [.write ">"])) t') := by
    intro arg t₁ harg
    refine Ends.mono (ends_alloc_spelled (k := .classType none o.observerName [arg]) harg.size_le rfl
      (.stroke _ (.stroke _ (harg.spells.cons_child (.stroke _ .nil))))) ?_
    exact fun a t' ha => ⟨ha.spells, ha.size_le, fun hs => ha.keep (harg.keep hs)⟩
  obtain ⟨k', hk', hbare⟩ := exists_kind?_of_bare? h.kind
  unfold observerType
  refine .bind_get ?_
  rw [hk']
  cases k' with
  | primitiveType p =>
    subst hbare
    exact .bind (ends_alloc_spelled hn rfl (.stroke _ .nil)) hout
  | _ =>
    subst hbare
    exact .bind (ends_copyErased_spelled hn h) hout

/-! ## Fields -/

theorem spells_field {v : Visibility} {isStatic : Bool} {ty var : NodeId} {ss ss' : List Stroke}
    (hty : Spells n t [.child ty] ss) (hvar : Spells n t [.child var] ss') :
    Spells n t (Kind.field { modifiers := { visibility := some v, isStatic }, ty, vars := [var] }).items
      (modifierStrokes v isStatic ++ (ss ++ .sep none :: (ss' ++ token ";"))) := by
  cases isStatic with
  | false => exact .stroke _ (.stroke _ (hty.cons_child (.stroke _ (hvar.cons_child (.stroke _ (.stroke _ .nil))))))
  | true =>
    exact .stroke _ (.stroke _ (.stroke _ (hty.cons_child (.stroke _ (hvar.cons_child (.stroke _ (.stroke _ .nil)))))))

theorem ends_backingField_worded (h : IsType t d.ty k ss) (p : Pos) :
    Ends (backingField o d p) t (fun a t' => IsBacking o d ss t.cells.size t' a) := by
  have hout : ∀ ty t₁, t.cells.size ≤ t₁.cells.size → Spells t.cells.size t₁ [.child ty] ss → Ends (do
      let var ← alloc .synthetic (.var (.synthetic (o.backingName d.name.name)) d.initial)
      alloc (.point p)
        (.field { modifiers := { visibility := some .priv, isStatic := d.modifiers.isStatic }, ty, vars := [var] })
      : Edit LowerError NodeId) t₁ (fun a t' => IsBacking o d ss t.cells.size t' a) := by
    intro ty t₁ hsize hty
    refine .bind (Tree.ends_alloc (R := fun a t' => a = t₁.fresh ∧
      t' = t₁.add .synthetic (.var (.synthetic (o.backingName d.name.name)) d.initial)) ⟨rfl, rfl⟩) ?_
    rintro _ _ ⟨rfl, rfl⟩
    obtain ⟨hfield, hvar⟩ := bare?_add_field (t := t₁) .synthetic (.point p) (o.backingName d.name.name) d.initial
      { modifiers := { visibility := some .priv, isStatic := d.modifiers.isStatic }, ty, vars := [t₁.fresh] }
    refine Tree.ends_alloc ⟨ty, t₁.fresh, ?_, hsize, hfield, hvar, hty.keep (fun x _ hx => ?_) (Nat.le_refl _)⟩
    · show t.cells.size ≤ (t₁.add _ _).cells.size
      rw [size_add]
      omega
    · rw [bare?_add, if_neg (ne_fresh_of_index_lt ?_), bare?_add, if_neg (ne_fresh_of_contains hx)]
      rw [size_add]
      exact Nat.lt_succ_of_lt (index_lt_of_contains hx)
  unfold backingField
  refine .bind (ends_copyErased_spelled (Nat.le_refl _) h) fun ty t₁ hty => ?_
  cases hinit : d.initial with
  | none =>
    rw [hinit] at hout
    exact hout ty t₁ hty.size_le hty.spells
  | some initial =>
    rw [hinit] at hout
    refine .bind_modify (hout ty _ ?_
      (hty.spells.keep (fun x _ _ => (Moved.eraseLocs t₁ initial).bare_eq x) (Nat.le_refl _)))
    rw [(Moved.eraseLocs t₁ initial).size_eq]
    exact hty.size_le

theorem ends_observerField_worded (h : IsType t d.ty k ss) (p : Pos) : Ends (observerField o d p) t (fun a t' =>
    Spells t.cells.size t' [.child a] (observerStrokes o d (boxedStrokes k ss))) := by
  unfold observerField
  refine .bind (ends_observerType_spelled (Nat.le_refl _) h) fun ty t₁ hty => ?_
  refine .bind (ends_alloc_spelled hty.size_le rfl (.stroke _ (.stroke _ .nil))) fun var t₂ hvar => ?_
  exact (ends_alloc_spelled hvar.size_le rfl (spells_field (hvar.keep hty.spells) hvar.spells)).mono fun a t' ha =>
    ha.spells

/-! ## Bodies -/

theorem ends_defaultSetterBody_spelled (p : Pos) (backing observer : String) :
    Ends (defaultSetterBody o p backing observer) t (fun a t' => t.cells.size ≤ t'.cells.size ∧
      Spells t.cells.size t' [.child a] (setterBodyStrokes backing observer o.paramName)) := by
  unfold defaultSetterBody
  refine .bind (ends_bareName_spelled (Nat.le_refl _) observer) fun left t₁ hleft => ?_
  refine .bind (ends_alloc_spelled hleft.size_le rfl (.stroke _ .nil)) fun right t₂ hright => ?_
  refine .bind (ends_alloc_spelled hright.size_le rfl
    ((hright.keep hleft.spells).cons_child (.stroke _ (hright.spells.cons_child .nil)))) fun cond t₃ hcond => ?_
  refine .bind (ends_bareName_spelled hcond.size_le observer) fun receiver t₄ hreceiver => ?_
  refine .bind (ends_bareName_spelled hreceiver.size_le backing) fun old t₅ hold => ?_
  refine .bind (ends_bareName_spelled hold.size_le o.paramName) fun new t₆ hnew => ?_
  refine .bind (ends_alloc_spelled hnew.size_le rfl ((hnew.keep (hold.keep hreceiver.spells)).cons_child
    (.stroke _ (.stroke _ (.stroke _ (.stroke _ (.stroke _ ((hnew.keep hold.spells).cons_child
      (.stroke _ (hnew.spells.cons_child (.stroke _ (.stroke _ .nil)))))))))))) fun call t₇ hcall => ?_
  refine .bind (ends_alloc_spelled hcall.size_le rfl (hcall.spells.cons_child (.stroke _ (.stroke _ .nil))))
    fun notification t₈ hnotification => ?_
  have hcond₈ := hnotification.keep (hcall.keep (hnew.keep (hold.keep (hreceiver.keep hcond.spells))))
  refine .bind (ends_alloc_spelled hnotification.size_le rfl (.stroke _ (.stroke _ (hcond₈.cons_child
    (.stroke _ (.stroke _ (hnotification.spells.cons_child .nil))))))) fun notify t₉ hnotify => ?_
  refine .bind (ends_bareName_spelled hnotify.size_le backing) fun target t₁₀ htarget => ?_
  refine .bind (ends_bareName_spelled htarget.size_le o.paramName) fun value t₁₁ hvalue => ?_
  refine .bind (ends_alloc_spelled hvalue.size_le rfl
    ((hvalue.keep htarget.spells).cons_child (.stroke _ (hvalue.spells.cons_child .nil)))) fun assign t₁₂ hassign => ?_
  refine .bind (ends_alloc_spelled hassign.size_le rfl (hassign.spells.cons_child (.stroke _ (.stroke _ .nil))))
    fun store t₁₃ hstore => ?_
  have hnotify₁₃ := hstore.keep (hassign.keep (hvalue.keep (htarget.keep hnotify.spells)))
  refine Ends.mono (ends_alloc_spelled (k := .block [notify, store]) hstore.size_le rfl (.stroke _ (.stroke _
    (hnotify₁₃.cons_child (.stroke _ (hstore.spells.cons_child (.stroke _ (.stroke _ (.stroke _ .nil))))))))) ?_
  exact fun a t' ha => ⟨ha.size_le, ha.spells⟩

theorem ends_defaultGetterBody_spelled (p : Pos) (backing : String) :
    Ends (defaultGetterBody o p backing) t (fun a t' => t.cells.size ≤ t'.cells.size ∧
      Spells t.cells.size t' [.child a] (getterBodyStrokes backing)) := by
  unfold defaultGetterBody
  refine .bind (ends_bareName_spelled (Nat.le_refl _) backing) fun value t₁ hvalue => ?_
  refine .bind (ends_alloc_spelled hvalue.size_le rfl (.stroke _ (.stroke _
    (hvalue.spells.cons_child (.stroke _ (.stroke _ .nil)))))) fun result t₂ hresult => ?_
  refine Ends.mono (ends_alloc_spelled (k := .block [result]) hresult.size_le rfl (.stroke _ (.stroke _
    (hresult.spells.cons_child (.stroke _ (.stroke _ (.stroke _ .nil))))))) ?_
  exact fun a t' ha => ⟨ha.size_le, ha.spells⟩

/-! ## Methods -/

section

variable (v : Visibility) (isStatic : Bool) (name : String) {result body : NodeId} {ss ss' ss'' : List Stroke}

open Script in
/-- A method with modifiers and a body. -/
theorem spells_method {ids : List NodeId} (hresult : Spells n t [.child result] ss)
    (hparams : Spells n t (params .empty ids .synthetic) ss') (hbody : Spells n t [.child body] ss'') :
    Spells n t (Kind.method
        { modifiers := { visibility := some v, isStatic }, result, name := .synthetic name, params := ids,
          body := some body }).items
      (modifierStrokes v isStatic ++ (ss ++ .sep none :: (token name ++ (ss' ++ .sep none :: ss'')))) := by
  have hsep : ∀ next, Spells n t (sep next) [.sep none] := fun next => .stroke _ .nil
  have hname : Spells n t (ident (.synthetic name)) (token name) := .stroke _ (.stroke _ .nil)
  have hmodifiers : Spells n t (modifiers { visibility := some v, isStatic })
      (.write v.text :: if isStatic then [.write "static"] else []) := by
    cases isStatic
    · exact .stroke _ .nil
    · exact .stroke _ (.stroke _ .nil)
  have hend : Spells n t (separated empty body) (.sep none :: ss'') := .stroke _ hbody
  have hall :=
    ((((hmodifiers.append (hsep (empty.start? result))).append (hresult.append (hsep none))).append hname).append
      hparams).append hend
  unfold Kind.items Node.script
  simpa [modifierStrokes, hasModifiers, Modifiers.hasKeyword, typeParams, clause, separated, sep,
    Ident.synthetic] using hall

theorem spells_setter {param : NodeId} (hresult : Spells n t [.child result] ss)
    (hparam : Spells n t [.child param] ss') (hbody : Spells n t [.child body] ss'') :
    Spells n t (Kind.method
        { modifiers := { visibility := some v, isStatic }, result, name := .synthetic name, params := [param],
          body := some body }).items
      (modifierStrokes v isStatic ++ (ss ++ .sep none :: (token name ++ .glue ⟨false, "(", false⟩ none none ::
        (ss' ++ .write ")" :: .sep none :: ss'')))) := by
  have hparams : Spells n t (Script.params .empty [param] .synthetic)
      (.glue ⟨false, "(", false⟩ none none :: (ss' ++ [.write ")"])) := .stroke _ (hparam.cons_child (.stroke _ .nil))
  simpa using spells_method v isStatic name hresult hparams hbody

theorem spells_getter (hresult : Spells n t [.child result] ss) (hbody : Spells n t [.child body] ss') :
    Spells n t (Kind.method
        { modifiers := { visibility := some v, isStatic }, result, name := .synthetic name, body := some body }).items
      (modifierStrokes v isStatic ++
        (ss ++ .sep none :: (token name ++ .write "(" :: .write ")" :: .sep none :: ss'))) := by
  have hparams : Spells n t (Script.params .empty [] .synthetic) [.write "(", .write ")"] := .stroke _ (.stroke _ .nil)
  exact spells_method v isStatic name hresult hparams hbody

end

theorem ends_addSetter_worded (h : IsType t d.ty k ss) (hbody : d.setter.body = none) (p : Pos) :
    Ends (addSetter o d p) t (fun r t' => Spells t.cells.size t' [.child r.1] (setterStrokes o d ss)) := by
  obtain ⟨roots, hf⟩ := h.forest
  unfold addSetter
  rw [hbody]
  refine .bind ((ends_defaultSetterBody False (Q := fun _ => True) (fun _ _ _ => trivial) hf p _ _).and
    (ends_defaultSetterBody_spelled p _ _)) fun body t₁ ⟨hb₁, hsize, hspells⟩ => ?_
  obtain ⟨node, hnode⟩ := contains_iff.1 (hb₁.forest.contained body List.mem_cons_self)
  refine .bind (ends_stopLine hnode p) ?_
  rintro _ _ ⟨rfl, rfl⟩
  refine .bind (ends_copyErased_spelled hsize (h.built hb₁.toBuilt)) fun ty t₂ hty => ?_
  refine .bind (ends_alloc_spelled hty.size_le rfl (hty.spells.cons_child (.stroke _ (.stroke _ (.stroke _ .nil)))))
    fun param t₃ hparam => ?_
  refine .bind (ends_alloc_spelled hparam.size_le rfl (.stroke _ .nil)) fun result t₄ hresult => ?_
  have hbody₄ := hresult.keep (hparam.keep (hty.keep hspells))
  obtain ⟨node', hnode'⟩ := contains_iff.1 hbody₄.contains
  refine .bind (ends_bind_node hnode' (ends_alloc_spelled hresult.size_le rfl
    (spells_setter _ _ _ hresult.spells (hresult.keep hparam.spells) hbody₄))) fun method t₅ hmethod => ?_
  exact .pure hmethod.spells

theorem ends_addGetter_worded (h : IsType t d.ty k ss) (hbody : d.getter.body = none) (p : Pos) :
    Ends (addGetter o d p) t (fun r t' => Spells t.cells.size t' [.child r.1] (getterStrokes o d ss)) := by
  obtain ⟨roots, hf⟩ := h.forest
  unfold addGetter
  rw [hbody]
  refine .bind ((ends_defaultGetterBody False (Q := fun _ => True) (fun _ _ _ => trivial) hf p _).and
    (ends_defaultGetterBody_spelled p _)) fun body t₁ ⟨hb₁, hsize, hspells⟩ => ?_
  obtain ⟨node, hnode⟩ := contains_iff.1 (hb₁.forest.contained body List.mem_cons_self)
  refine .bind (ends_stopLine hnode p) ?_
  rintro _ _ ⟨rfl, rfl⟩
  refine .bind (ends_copyErased_spelled hsize (h.built hb₁.toBuilt)) fun result t₂ hresult => ?_
  have hbody₂ := hresult.keep hspells
  obtain ⟨node', hnode'⟩ := contains_iff.1 hbody₂.contains
  refine .bind (ends_bind_node hnode' (ends_alloc_spelled hresult.size_le rfl
    (spells_getter _ _ _ hresult.spells hbody₂))) fun method t₃ hmethod => ?_
  exact .pure hmethod.spells

/-! ## All four -/

theorem IsType.contains (h : IsType t ty k ss) : t.contains ty = true := contains_of_bare? h.kind

/-- **The members of a property are spelled as they should be.** -/
theorem ends_lowerProperty_worded {rest : List NodeId} (hf : Forest t ((Kind.property d).children ++ rest))
    (hty : t.bare? d.ty = some k) (line col : Nat) :
    Ends (lowerProperty o d line col) t (fun r t' => Worded o d k (t.spelling d.ty) t.cells.size t' r.1) := by
  have hQ : Allows (fun _ => True) := fun _ _ _ => trivial
  have h : IsType t d.ty k (t.spelling d.ty) := ⟨⟨_, hf⟩, hty, rfl⟩
  have hcopies : ∀ {t'}, IsType t' d.ty k (t.spelling d.ty) → CopiesTo (fun _ => True) t' d.ty := fun h' =>
    ⟨h'.contains, fun _ _ _ _ _ => trivial⟩
  have h₀ : Built (fun _ => True) (doomed d ++ rest) t
      (d.initial.toList ++ (d.setter.body.toList ++ d.getter.body.toList)) t := by
    refine .refl ?_
    rw [← List.append_assoc]
    exact hf.perm ((children_property_perm d).append_right rest)
  unfold lowerProperty
  refine .bind ((ends_backingField False hQ h₀.forest_assoc (hcopies h) _).and (ends_backingField_worded h _))
    fun backing t₁ ⟨⟨h₁, _⟩, hbacking⟩ => ?_
  have hb₁ := h₀.trans _ h₁.toBuilt
  have hty₁ := h.built hb₁
  refine .bind ((ends_observerField False hQ hb₁.forest (hcopies hty₁) _).and (ends_observerField_worded hty₁ _))
    fun observer t₂ ⟨⟨h₂, _⟩, hobserver⟩ => ?_
  have hb₂ := hb₁.trans [] h₂.toBuilt
  have hb₂ : Built (fun _ => True) (doomed d ++ rest) t
      (d.setter.body.toList ++ (d.getter.body.toList ++ [observer, backing])) t₂ := hb₂.perm (by
    rw [← List.append_assoc]
    exact (List.perm_append_comm : ([observer, backing] ++ _).Perm _))
  have hty₂ := h.built hb₂
  obtain ⟨setter, t₃, hset, -, h₃, -⟩ := ends_addSetter (o := o) False hQ hb₂.forest_assoc (hcopies hty₂) False.elim
    ⟨line + 2, col⟩
  have hsetter := fun hnone => (ends_addSetter_worded hty₂ hnone ⟨line + 2, col⟩).of_eq hset
  have hcode := fun hnone => (ends_addSetter_default hb₂.forest (hcopies hty₂) hnone ⟨line + 2, col⟩).of_eq hset
  refine .bind (P := fun r t' => r = setter ∧ t' = t₃) ⟨_, _, hset, rfl, rfl⟩ ?_
  rintro setter t₃ ⟨rfl, rfl⟩
  have hb₃ := hb₂.trans _ h₃.toBuilt
  have hb₃ : Built (fun _ => True) (doomed d ++ rest) t (d.getter.body.toList ++ [setter.1, observer, backing]) t₃ :=
    hb₃.perm (List.perm_middle.symm : (setter.1 :: (d.getter.body.toList ++ [observer, backing])).Perm _)
  have hty₃ := h.built hb₃
  obtain ⟨getter, t₄, hget, -, h₄, -⟩ := ends_addGetter (o := o) False hQ hb₃.forest_assoc (hcopies hty₃) False.elim
    ⟨setter.2 + 1, col⟩
  have hgetter := fun hnone => (ends_addGetter_worded hty₃ hnone ⟨setter.2 + 1, col⟩).of_eq hget
  refine .bind (P := fun r t' => r = getter ∧ t' = t₄) ⟨_, _, hget, rfl, rfl⟩ ?_
  rintro getter t₄ ⟨rfl, rfl⟩
  have hb₄ := (hb₃.trans _ h₄.toBuilt).perm (List.reverse_perm [backing, observer, setter.1, getter.1])
  -- what is built later and what is removed at the end leaves the members alone
  have hworded : Worded o d k (t.spelling d.ty) t.cells.size t₄ ⟨backing, observer, setter.1, getter.1⟩ :=
    { backing := hbacking.keep (fun x _ hx => by
        have hx₂ := h₂.contains hx
        rw [h₄.keep (h₃.contains hx₂), h₃.keep hx₂, h₂.keep hx]) (Nat.le_refl _)
      observer := hobserver.keep (fun x _ hx => by rw [h₄.keep (h₃.contains hx), h₃.keep hx]) h₁.size_le
      setter := fun hnone => (hsetter hnone).keep (fun x _ hx => h₄.keep hx) hb₂.size_le
      getter := fun hnone => (hgetter hnone).keep (fun _ _ _ => rfl) hb₃.size_le
      code := fun hnone => (hcode hnone).keep (fun x _ hx => h₄.keep hx) hb₂.size_le }
  have hgone : ∀ x, t.cells.size ≤ x.index → t₄.contains x = true →
      ((doomed d).foldl Tree.remove t₄).bare? x = t₄.bare? x := fun x hx _ => bare?_removes_of_new hb₄ hx
  exact .bind_modify (.pure (hworded.keep hgone (Nat.le_refl _)))

end UniformAccess.Lowering
