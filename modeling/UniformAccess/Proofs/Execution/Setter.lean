import UniformAccess.Proofs.Execution.Run
import UniformAccess.Proofs.Lowering.Texts
/-!
# What a default setter does

A default setter tells the observer of the old and the new value, if there is an observer, and then it stores the new
value. That is so unless its parameter has the name of one of the two fields and hides it (`default_setter_sets`). The
three names are made independently of each other, so that some options let it happen (`not_sets_value`).
-/
namespace UniformAccess

/-! ## What a setter should do -/

/-- The fields as the observer leaves them that was told of the new value, if there is one. -/
def told (w : World) (backing observer : String) (fields : Fields) (arg : Value) : Fields :=
  if fields observer = .null then fields else (w (fields observer) "changed" [fields backing, arg] fields).2

/-- **A setter has told the observer, if there is one, and has then stored its argument.** Nothing else has happened. -/
structure Sets (w : World) (backing observer : String) (fields : Fields) (arg : Value) (m : Memory) : Prop where
  stored : m.fields backing = arg
  others : ∀ name, name ≠ backing → m.fields name = told w backing observer fields arg name
  acts : m.acts =
    (if fields observer = .null then [] else [.call (fields observer) "changed" [fields backing, arg]]) ++
      [.store backing arg]

namespace Memory

/-- What the first statement of a default setter does. -/
def notify (m : Memory) (w : World) (backing observer value : String) : Memory :=
  if m.read observer = .null then m else m.call w (m.read observer) "changed" [m.read backing, m.read value]

/-- The memory of a setter at its start. -/
def start (value : String) (fields : Fields) (arg : Value) : Memory :=
  { params := fun name => if value = name then some arg else none, fields }

/-- The memory of a default setter at its end. -/
def outcome (w : World) (backing observer value : String) (fields : Fields) (arg : Value) : Memory :=
  let m := (start value fields arg).notify w backing observer value
  m.write backing (m.read value)

variable {w : World} {m : Memory} {backing observer value : String} {fields : Fields} {arg : Value}

theorem params_notify : (m.notify w backing observer value).params = m.params := by
  unfold notify
  split <;> rfl

theorem read_start (name : String) :
    (start value fields arg).read name = if value = name then arg else fields name := by
  unfold read start
  dsimp only
  split <;> rfl

theorem read_notify_start : ((start value fields arg).notify w backing observer value).read value = arg := by
  unfold read
  rw [params_notify]
  simp [start]

theorem outcome_eq : outcome w backing observer value fields arg =
    ((start value fields arg).notify w backing observer value).write backing arg := by
  unfold outcome
  dsimp only
  rw [read_notify_start]

/-- **A default setter sets, if its parameter hides neither field.** -/
theorem sets_outcome (hb : value ≠ backing) (ho : value ≠ observer) :
    Sets w backing observer fields arg (outcome w backing observer value fields arg) := by
  have hfree : ((start value fields arg).notify w backing observer value).params backing = none := by
    rw [params_notify]
    exact if_neg hb
  have hnotify : (start value fields arg).notify w backing observer value =
      if fields observer = .null then start value fields arg
      else (start value fields arg).call w (fields observer) "changed" [fields backing, arg] := by
    unfold notify
    simp only [read_start, if_neg hb, if_neg ho, if_pos]
  rw [outcome_eq, write_field hfree, hnotify]
  refine ⟨Function.update_self .., fun name hne => ?_, ?_⟩
  · refine (Function.update_of_ne hne ..).trans ?_
    unfold told
    split <;> rfl
  · dsimp only
    split <;> rfl

/-- **A parameter with the name of the field for the value hides it**: the argument is not stored. -/
theorem not_sets_of_hidden_backing :
    ∃ w fields arg, ¬ Sets w backing observer fields arg (outcome w backing observer backing fields arg) := by
  let w : World := fun _ _ _ fields => (.null, fields)
  refine ⟨w, fun _ => .null, .object 0, fun h => ?_⟩
  have hparam : (((start backing (fun _ => .null) (.object 0)).notify w backing observer backing).params
      backing).isSome := by
    rw [params_notify]
    simp [start]
  -- the argument may be told of the change in place of the observer, but in this world nobody touches the fields
  have hidle : ((start backing (fun _ => .null) (.object 0)).notify w backing observer backing).fields backing =
      .null := by
    unfold notify
    split <;> rfl
  have hstored := h.stored
  rw [outcome_eq, write_param hparam, hidle] at hstored
  cases hstored

/-- **A parameter with the name of the field for the observer hides it**: the argument is told of the change. -/
theorem not_sets_of_hidden_observer (hb : observer ≠ backing) :
    ∃ w fields arg, ¬ Sets w backing observer fields arg (outcome w backing observer observer fields arg) := by
  let w : World := fun _ _ _ fields => (.null, fields)
  refine ⟨w, fun _ => .null, .object 0, fun h => ?_⟩
  have hfree : ((start observer (fun _ => .null) (.object 0)).notify w backing observer observer).params backing =
      none := by
    rw [params_notify]
    exact if_neg hb
  -- there is no observer to tell, but the parameter in its place is not null: one act too many
  have hacts := congrArg List.length h.acts
  rw [outcome_eq, write_field hfree, notify, read_start, if_pos rfl, if_neg (by simp)] at hacts
  simp [call, start] at hacts

theorem sets_outcome_iff :
    (∀ w fields arg, Sets w backing observer fields arg (outcome w backing observer value fields arg)) ↔
    value ≠ backing ∧ value ≠ observer := by
  refine ⟨fun h => ?_, fun ⟨hb, ho⟩ w fields arg => sets_outcome hb ho⟩
  have hb : value ≠ backing := by
    rintro rfl
    obtain ⟨w, fields, arg, hnot⟩ : ∃ w fields arg,
        ¬ Sets w value observer fields arg (outcome w value observer value fields arg) :=
      not_sets_of_hidden_backing
    exact hnot (h w fields arg)
  refine ⟨hb, ?_⟩
  rintro rfl
  obtain ⟨w, fields, arg, hnot⟩ := not_sets_of_hidden_observer hb
  exact hnot (h w fields arg)

end Memory

/-! ## What a default setter does -/

namespace Lowering

open UniformAccess.Tree

variable {o : LoweringOptions} {d : PropertyDecl} {t : Tree} {n depth : Nat} {x : NodeId} {w : World} {m : Memory}
  {backing observer value : String}

theorem Notifies.exec (h : Notifies backing observer value n t x) :
    t.execTo w (depth + 4) x m = .ok () (m.notify w backing observer value) := by
  obtain ⟨left, right, cond, receiver, old, new, call, notification, ⟨-, hleft⟩, ⟨-, hright⟩, ⟨-, hcond⟩,
    ⟨-, hreceiver⟩, ⟨-, hold⟩, ⟨-, hnew⟩, ⟨-, hcall⟩, ⟨-, hnotification⟩, ⟨-, hx⟩⟩ := h
  refine execTo_if hx (evalTo_ne hcond (evalTo_name hleft) (evalTo_null hright)) (fun hne => ?_) fun heq => ?_
  -- the arguments are names, and reading them changes nothing
  · have hne : m.read observer ≠ .null := bne_iff_ne.1 hne
    have hargs : [old, new].mapM (t.evalTo w (depth + 1)) m = .ok [m.read backing, m.read value] m := by
      rw [List.mapM_cons, bind_of_ok (evalTo_name hold), List.mapM_cons, bind_assoc, bind_of_ok (evalTo_name hnew)]
      rfl
    unfold Memory.notify
    rw [if_neg hne]
    exact execTo_expr hnotification (evalTo_call hcall (evalTo_name hreceiver) hargs hne)
  · unfold Memory.notify
    rw [if_pos (by simpa using heq)]

theorem Stores.exec (h : Stores backing value n t x) :
    t.execTo w (depth + 4) x m = .ok () (m.write backing (m.read value)) := by
  obtain ⟨target, source, assign, ⟨-, htarget⟩, ⟨-, hsource⟩, ⟨-, hassign⟩, ⟨-, hx⟩⟩ := h
  exact execTo_expr hx (evalTo_assign hassign htarget (evalTo_name hsource))

theorem IsSetterBody.exec (h : IsSetterBody backing observer value n t x) : t.execTo w (depth + 5) x m =
    .ok () ((m.notify w backing observer value).write backing ((m.notify w backing observer value).read value)) := by
  obtain ⟨notify, store, hnotify, hstore, ⟨-, hx⟩⟩ := h
  rw [execTo_block hx, List.forM_cons, bind_of_ok hnotify.exec, List.forM_cons, bind_of_ok hstore.exec]
  rfl

/-- **Lowering gives a default setter to every property that has no setter of its own.** -/
theorem exists_default_setter {t' : Tree} {r : Lowered} (hp : t.Proper) (hlower : lower o t = .ok r t') :
    ∃ entry : NodeId → Synthesized, r.members = (order t).map entry ∧
      ∀ p d, t.kind? p = some (.property d) → d.setter.body = none →
        ∃ n, IsDefaultSetter o d n t' (entry p).setter := by
  have hin := fun p hprop => exists_holdsMember_of_lower (p := p) hp hlower hprop
  rcases turns_of_lower hp hlower with ⟨hnone, rfl, rfl⟩ | ⟨t₀, done, -, hbegun, hdone, hmembers, hturns⟩
  · refine ⟨fun _ => ⟨⟨0⟩, ⟨0⟩, ⟨0⟩, ⟨0⟩⟩, ?_, fun p d hd => ?_⟩
    · unfold order
      rw [hnone]
      rfl
    · have hprop : p ∈ properties t' := (mem_properties hp).2 (isProperty_iff.2 ⟨d, hd⟩)
      rw [hnone] at hprop
      cases hprop
  · obtain ⟨entry, hentry⟩ := exists_entry (hdone ▸ nodup_order hp)
    refine ⟨entry, ?_, fun p d hd hbody => ?_⟩
    · rw [hmembers, ← hdone, List.map_map]
      exact List.map_congr_left fun e he => hentry e he
    · obtain ⟨e, he, rfl⟩ := (mem_done hp hin hdone).2 (isProperty_iff.2 ⟨d, hd⟩)
      have hty : t.contains d.ty = true := by
        refine hp.contained e.1 d.ty ?_
        rw [children_of_kind? hd]
        exact mem_children_of_mem_doomed List.mem_cons_self
      obtain ⟨k, hk⟩ := exists_kind? hty
      have hworded := hturns.progress.worded e he d k.bare (hbegun.kind?_property hp hd)
        ((hbegun.type_eq hp hd).1.trans (bare?_of_kind? hk))
      exact ⟨_, hentry e he ▸ hworded.code hbody⟩

/-- The body is five levels deep, and every level has a node of its own kind. -/
theorem IsSetterBody.five_le_height (h : IsSetterBody backing observer value n t x) : 5 ≤ t.height := by
  obtain ⟨notify, store, hnotify, -, ⟨-, hx⟩⟩ := h
  obtain ⟨left, right, cond, receiver, old, new, call, notification, -, -, -, ⟨-, hreceiver⟩, -, -, ⟨-, hcall⟩,
    ⟨-, hnotification⟩, ⟨-, hif⟩⟩ := hnotify
  have hkinds : [x, notify, notification, call, receiver].map t.bare? = [some (.block [notify, store]),
      some (.ifStmt cond notification none), some (.exprStmt call),
      some (.call (some receiver) (.synthetic "changed") [old, new]), some (.nameExpr observer)] := by
    simp only [List.map_cons, List.map_nil, hx, hif, hnotification, hcall, hreceiver]
  have hnodup : [x, notify, notification, call, receiver].Nodup := .of_map t.bare? (by rw [hkinds]; simp)
  have hall : ∀ y ∈ [x, notify, notification, call, receiver], t.contains y = true := by
    simp only [List.mem_cons, List.not_mem_nil, or_false]
    rintro y (rfl | rfl | rfl | rfl | rfl)
    · exact contains_of_bare? hx
    · exact contains_of_bare? hif
    · exact contains_of_bare? hnotification
    · exact contains_of_bare? hcall
    · exact contains_of_bare? hreceiver
  exact length_le_height hnodup hall

/-- **What comes of running a default setter.** -/
theorem IsDefaultSetter.invoke_eq (h : IsDefaultSetter o d n t x) (fields : Fields) (arg : Value) :
    t.invoke w x [arg] fields =
      some (Memory.outcome w (o.backingName d.name.name) (o.observerFieldName d.name.name) o.paramName
        fields arg) := by
  obtain ⟨decl, param, pdecl, body, hbody, ⟨-, hparam⟩, hname, ⟨-, hx⟩, hparams, hdecl⟩ := h
  obtain ⟨depth, hdepth⟩ := Nat.exists_eq_add_of_le' hbody.five_le_height
  have hbindings : t.bindings decl.params [arg] = (Memory.start o.paramName fields arg).params := by
    funext name
    rw [hparams, bindings, paramName?, hparam]
    simp only [hname, Option.some.injEq]
    rfl
  unfold invoke
  rw [hx]
  dsimp only
  rw [hdecl]
  dsimp only
  rw [hdepth, hbindings, hbody.exec]
  rfl

/-- **A default setter sets, exactly if its parameter hides none of the two fields.** Whatever the options and the
property, whatever is in the fields and whatever the observer does when it is told, the setter runs to its end. It
stores its argument in the field for the value, and before that it tells the observer, if there is one, of the old
value and the new one, if and only if the name of its parameter is neither that of the field for the value nor that of
the field for the observer.

The options may give these two fields the same name. They are one field then, as `Fields` has it, and the observer that
is told is the old value itself. -/
theorem default_setter_sets {t' : Tree} {r : Lowered} (hp : t.Proper) (hlower : lower o t = .ok r t') :
    ∃ entry : NodeId → Synthesized, r.members = (order t).map entry ∧
      ∀ p d, t.kind? p = some (.property d) → d.setter.body = none →
        (∀ w fields arg, (t'.invoke w (entry p).setter [arg] fields).isSome = true) ∧
        ((∀ w fields arg, ∃ m, t'.invoke w (entry p).setter [arg] fields = some m ∧
            Sets w (o.backingName d.name.name) (o.observerFieldName d.name.name) fields arg m) ↔
          o.paramName ≠ o.backingName d.name.name ∧ o.paramName ≠ o.observerFieldName d.name.name) := by
  obtain ⟨entry, hmembers, hsetter⟩ := exists_default_setter hp hlower
  refine ⟨entry, hmembers, fun p d hd hbody => ?_⟩
  obtain ⟨n, hcode⟩ := hsetter p d hd hbody
  have hinvoke := fun w fields arg => hcode.invoke_eq (w := w) fields arg
  refine ⟨fun w fields arg => by rw [hinvoke]; rfl, ?_⟩
  rw [← Memory.sets_outcome_iff]
  refine forall_congr' fun w => forall_congr' fun fields => forall_congr' fun arg => ?_
  rw [hinvoke]
  exact ⟨fun ⟨m, hm, hsets⟩ => Option.some.inj hm ▸ hsets, fun hsets => ⟨_, rfl, hsets⟩⟩

theorem default_setter_sets_tally : ∃ r t' s, lower {} tally = .ok r t' ∧ r.members = [s] ∧ ∀ w fields arg, ∃ m,
    t'.invoke w s.setter [arg] fields = some m ∧ Sets w "_log" "logObserver" fields arg m := by
  have hp : tally.Proper := by decide
  have hok : (match lower {} tally with
    | .ok _ _ => true
    | .error _ _ => false) = true := by decide +kernel
  obtain ⟨r, t', hlower⟩ : ∃ r t', lower {} tally = .ok r t' := by
    generalize lower {} tally = run at hok
    cases run with
    | ok r t' => exact ⟨r, t', rfl⟩
    | error => cases hok
  obtain ⟨entry, hmembers, hsetters⟩ := default_setter_sets hp hlower
  refine ⟨r, t', entry ⟨2⟩, hlower, ?_, (hsetters ⟨2⟩ _ rfl rfl).2.2 ⟨by decide, by decide⟩⟩
  rw [hmembers, (by decide : order tally = [⟨2⟩])]
  rfl

/-- The tree of a class with a property `value`. -/
def holder : Tree :=
  { root := ⟨0⟩
    cells := #[
      some ⟨none, .synthetic, .unit { types := [⟨1⟩] }⟩,
      some ⟨some ⟨0⟩, .synthetic, .classDecl { name := .synthetic "Box", lbrace := .synthetic, members := [⟨2⟩] }⟩,
      some ⟨some ⟨1⟩, .synthetic, .property { ty := ⟨3⟩, name := .synthetic "value", lbrace := .synthetic }⟩,
      some ⟨some ⟨2⟩, .synthetic, .primitiveType .int⟩] }

/-- **A setter that assigns its parameter to itself.** With no lead for the names of fields, the field of the property
`value` has the name of the parameter. -/
theorem not_sets_value : holder.Proper ∧ ∃ r t' s, lower { backingLead := "" } holder = .ok r t' ∧ r.members = [s] ∧
    ∃ w fields arg m, t'.invoke w s.setter [arg] fields = some m ∧ m.fields "value" ≠ arg ∧ m.acts = [] := by
  have hrun : (match lower { backingLead := "" } holder with
    | .ok r t' => r.members.map (fun s => (t'.invoke (fun _ _ _ fields => (.null, fields)) s.setter [.object 0]
        (fun _ => .null)).map (fun m => (m.fields "value", m.acts)))
    | .error _ _ => []) = [some (.null, [])] := by decide +kernel
  refine ⟨by decide, ?_⟩
  generalize lower { backingLead := "" } holder = run at hrun
  cases run with
  | ok r t' =>
    obtain ⟨s, hs, hs'⟩ := List.map_eq_singleton_iff.1 hrun
    obtain ⟨m, hm, hresult⟩ := Option.map_eq_some_iff.1 hs'
    obtain ⟨hvalue, hacts⟩ := Prod.mk.inj hresult
    refine ⟨r, t', s, rfl, hs, _, _, _, m, hm, ?_, hacts⟩
    rw [hvalue]
    decide
  | error => cases hrun

end Lowering

end UniformAccess
