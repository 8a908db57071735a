import UniformAccess.Proofs.Printing.Ink
/-!
# What follows a child

A script asks where a child stops for one purpose: to space the token that follows the child. Before that token the pen
is not sent anywhere. So if a child comes to stop elsewhere, the script stays the same up to the child, changes in what
is written right after it, and is the same again from the next position on (`Trails`).
-/
namespace UniformAccess

/-- **The stroke sends the pen to no position.** -/
def Stroke.Level (s : Stroke) : Prop := ∀ q, s ≠ .goto (some q)

namespace Script

variable {t t' : Tree} {old : NodeId} {b : Bool} {j j' items items' : List Item}

/-- **Two scripts that differ only in what follows the child `old`.** Where the flag is set, nothing but level strokes
has come since the child. -/
inductive Trails (old : NodeId) : Bool → List Item → List Item → Prop
  | nil {b : Bool} : Trails old b [] []
  | stroke {b : Bool} {s : Stroke} {items items' : List Item} : Trails old false items items' →
      Trails old b (.stroke s :: items) (.stroke s :: items')
  | child {b : Bool} {c : NodeId} {items items' : List Item} : Trails old (c = old) items items' →
      Trails old b (.child c :: items) (.child c :: items')
  | loose {s s' : Stroke} {items items' : List Item} : s.Level → s'.Level → Trails old true items items' →
      Trails old true (.stroke s :: items) (.stroke s' :: items')

namespace Trails

theorem weaken (h : Trails old false items items') : Trails old b items items' := by
  cases h with
  | nil => exact .nil
  | stroke h => exact .stroke h
  | child h => exact .child h

theorem after (i : List Item) (h : Trails old false items items') : Trails old b (i ++ items) (i ++ items') := by
  induction i generalizing b with
  | nil => exact h.weaken
  | cons item i ih =>
    cases item with
    | stroke s => exact .stroke ih
    | child c => exact .child ih

theorem refl (items : List Item) : Trails old b items items := by
  have h : Trails old b (items ++ []) (items ++ []) := after items .nil
  rwa [List.append_nil] at h

/-- Without the child the scripts are the same. -/
theorem eq_of_not_mem (h : Trails old false items items') (hold : old ∉ childIds items) : items' = items := by
  generalize hb : false = b at h
  induction h with
  | nil => rfl
  | stroke _ ih => rw [ih hold rfl]
  | @child _ c items items' _ ih =>
    obtain ⟨hne, hrest⟩ := not_or.1 (List.mem_cons.not.1 hold)
    rw [ih hrest (decide_eq_false (Ne.symm hne)).symm]
  | loose => cases hb

/-- After the child the scripts differ in level strokes, and then no more. -/
theorem exists_level (h : Trails old b items items') (hold : old ∉ childIds items) :
    ∃ (mid mid' : List Stroke) (back : List Item), items = mid.map .stroke ++ back ∧ items' = mid'.map .stroke ++ back ∧
      (∀ s ∈ mid, s.Level) ∧ ∀ s ∈ mid', s.Level := by
  induction h with
  | loose hs hs' _ ih =>
    obtain ⟨mid, mid', back, rfl, rfl, hmid, hmid'⟩ := ih hold
    exact ⟨_ :: mid, _ :: mid', back, rfl, rfl, List.forall_mem_cons.2 ⟨hs, hmid⟩, List.forall_mem_cons.2 ⟨hs', hmid'⟩⟩
  | nil => exact ⟨[], [], [], rfl, rfl, fun _ h => absurd h List.not_mem_nil, fun _ h => absurd h List.not_mem_nil⟩
  | @stroke _ s items items' h _ =>
    refine ⟨[], [], .stroke s :: items, rfl, ?_, fun _ h => absurd h List.not_mem_nil,
      fun _ h => absurd h List.not_mem_nil⟩
    rw [h.eq_of_not_mem hold]
    rfl
  | @child _ c items items' h _ =>
    obtain ⟨hne, hrest⟩ := not_or.1 (List.mem_cons.not.1 hold)
    rw [decide_eq_false (Ne.symm hne)] at h
    refine ⟨[], [], .child c :: items, rfl, ?_, fun _ h => absurd h List.not_mem_nil,
      fun _ h => absurd h List.not_mem_nil⟩
    rw [h.eq_of_not_mem hrest]
    rfl

/-- **The scripts are the same up to the child, differ in level strokes, and are the same again.** -/
theorem exists_split (h : Trails old false items items') (hold : old ∈ childIds items) (hnd : (childIds items).Nodup) :
    ∃ (front : List Item) (mid mid' : List Stroke) (back : List Item),
      items = front ++ Item.child old :: (mid.map .stroke ++ back) ∧
      items' = front ++ Item.child old :: (mid'.map .stroke ++ back) ∧ (∀ s ∈ mid, s.Level) ∧ ∀ s ∈ mid', s.Level := by
  generalize hb : false = b at h
  induction h with
  | nil => cases hold
  | @stroke _ s items items' _ ih =>
    obtain ⟨front, mid, mid', back, rfl, rfl, hmid, hmid'⟩ := ih hold hnd rfl
    exact ⟨.stroke s :: front, mid, mid', back, rfl, rfl, hmid, hmid'⟩
  | @child _ c items items' h ih =>
    obtain ⟨hc, hnd⟩ := List.nodup_cons.1 hnd
    by_cases hco : c = old
    · obtain ⟨mid, mid', back, rfl, rfl, hmid, hmid'⟩ := h.exists_level (hco ▸ hc)
      exact ⟨[], mid, mid', back, by rw [hco]; rfl, by rw [hco]; rfl, hmid, hmid'⟩
    · have hold := (List.mem_cons.1 hold).resolve_left (Ne.symm hco)
      obtain ⟨front, mid, mid', back, rfl, rfl, hmid, hmid'⟩ := ih hold hnd (decide_eq_false hco).symm
      exact ⟨.child c :: front, mid, mid', back, rfl, rfl, hmid, hmid'⟩
  | loose => cases hb

end Trails

/-! ## The pieces of a script -/

section

variable (hstart : t'.start? = t.start?)
include hstart

theorem separated_congr : separated t' = separated t := by
  funext id
  unfold separated
  rw [hstart]

theorem separatedAll_congr : separatedAll t' = separatedAll t := by
  funext ids
  unfold separatedAll
  rw [separated_congr hstart]

theorem accessor_congr : accessor t' = accessor t := by
  funext a word
  unfold accessor
  rw [separated_congr hstart]

end

/-- The token after the child may be spaced in another way. -/
theorem trails_glue {P : Prop} [Decidable P] {prev prev' : Option Pos} (g : Glue) (next : Option Pos)
    (hprev : ¬ P → prev' = prev) (h : ∀ b, Trails old b items items') :
    Trails old (decide P) (glue g prev next ++ items) (glue g prev' next ++ items') := by
  by_cases hP : P
  · rw [decide_eq_true hP]
    exact .loose (fun _ h => by cases h) (fun _ h => by cases h) (h true)
  · rw [hprev hP]
    exact .stroke (h false)

-- the trees differ in where `old` stops
variable (hstart : t'.start? = t.start?) (hstop : ∀ c, c ≠ old → t'.stop? c = t.stop? c)

theorem getLast?_bind_congr (hstop : ∀ c, c ≠ old → t'.stop? c = t.stop? c) {ids : List NodeId}
    (h : ids.getLast? ≠ some old) : ids.getLast?.bind t'.stop? = ids.getLast?.bind t.stop? := by
  cases hids : ids.getLast? with
  | none => rfl
  | some c => exact hstop c fun hc => h (hc ▸ hids)

include hstart hstop

theorem trails_listAfter : ∀ (ids : List NodeId) (prev : NodeId), Trails old ((prev :: ids).getLast? = some old) j j' →
    Trails old (prev = old) (listAfter t prev ids ++ j) (listAfter t' prev ids ++ j')
  | [], prev, hj => by simpa [listAfter] using hj
  | id :: ids, prev, hj => by
    rw [List.getLast?_cons_cons] at hj
    rw [listAfter, listAfter, hstart, List.append_assoc, List.append_assoc]
    exact trails_glue _ _ (hstop prev) fun _ => .child (trails_listAfter ids id hj)

/-- A list, before something that may know its last child. -/
theorem trails_list_getLast (ids : List NodeId) (hj : Trails old (ids.getLast? = some old) j j') :
    Trails old b (list t ids ++ j) (list t' ids ++ j') := by
  cases ids with
  | nil => exact hj.weaken
  | cons id ids => exact .child (trails_listAfter hstart hstop ids id hj)

theorem trails_list (ids : List NodeId) (hj : Trails old false j j') :
    Trails old b (list t ids ++ j) (list t' ids ++ j') :=
  trails_list_getLast hstart hstop ids hj.weaken

theorem trails_clause (word : String) (ids : List NodeId) (hj : Trails old false j j') :
    Trails old b (clause t word ids ++ j) (clause t' word ids ++ j') := by
  unfold clause
  split
  · exact hj.weaken
  · rw [List.append_assoc, List.append_assoc]
    exact .after _ (trails_list hstart hstop ids hj)

/-- A list between brackets, if it is not empty. -/
theorem trails_enclosed (opening closing : String) (ids : List NodeId) :
    Trails old b (if ids.isEmpty then [] else write opening ++ list t ids ++ write closing)
      (if ids.isEmpty then [] else write opening ++ list t' ids ++ write closing) := by
  split
  · exact .nil
  · rw [List.append_assoc, List.append_assoc]
    exact .after _ (trails_list hstart hstop ids (.refl _))

theorem trails_params (ids : List NodeId) (name : Loc) (hj : Trails old false j j') :
    Trails old b (params t ids name ++ j) (params t' ids name ++ j') := by
  cases ids with
  | nil => exact .after _ hj
  | cons first rest =>
    unfold params
    dsimp only
    rw [hstart, List.append_assoc, List.append_assoc, List.append_assoc, List.append_assoc]
    exact .after _ (trails_list hstart hstop (first :: rest) (.after _ hj))

theorem trails_args (ids : List NodeId) (callee stop : Option Pos) :
    Trails old b (args t ids callee stop) (args t' ids callee stop) := by
  cases ids with
  | nil => exact .refl _
  | cons first rest =>
    unfold args
    dsimp only
    rw [hstart, List.append_assoc, List.append_assoc]
    exact .after _ (trails_list hstart hstop (first :: rest) (.refl _))

/-- Arguments that follow a child. -/
theorem trails_args_stop (ids : List NodeId) (c : NodeId) (stop : Option Pos) :
    Trails old (c = old) (args t ids (t.stop? c) stop) (args t' ids (t'.stop? c) stop) := by
  cases ids with
  | nil => exact .refl _
  | cons first rest =>
    unfold args
    dsimp only
    rw [hstart, List.append_assoc, List.append_assoc]
    exact trails_glue _ _ (hstop c) fun _ => trails_list hstart hstop (first :: rest) (.refl _)

theorem trails_vars (d : VarsDecl) (hj : Trails old false j j') :
    Trails old b (vars t d ++ j) (vars t' d ++ j') := by
  unfold vars
  rw [hstart]
  cases d.vars with
  | nil =>
    simp only [List.append_assoc]
    exact .after _ (.after _ hj)
  | cons first rest =>
    dsimp only
    rw [List.append_assoc, List.append_assoc]
    refine .after _ (.child (.weaken ?_))
    show Trails old false (sep _ ++ list t (first :: rest) ++ j) (sep _ ++ list t' (first :: rest) ++ j')
    rw [List.append_assoc, List.append_assoc]
    exact .after _ (trails_list hstart hstop (first :: rest) hj)

end Script

open Script

/-- **A script asks where a child stops only for what it writes after that child.** -/
theorem Node.script_trails {t t' : Tree} {old : NodeId} (hstart : t'.start? = t.start?)
    (hstop : ∀ c, c ≠ old → t'.stop? c = t.stop? c) (n : Node) : Trails old false (n.script t) (n.script t') := by
  obtain ⟨parent, loc, k⟩ := n
  cases k with
  | annotationUse name args => exact .after _ (trails_enclosed hstart hstop _ _ args)
  | classDecl d =>
    simp only [Node.script, separatedAll_congr hstart, List.append_assoc]
    exact .after _ (.after _ (.after _ (.after _ (.after _
      (trails_clause hstart hstop _ _ (trails_clause hstart hstop _ _ (.refl _)))))))
  | field d => exact trails_vars hstart hstop d (.refl _)
  | localVar d =>
    have h : Trails old false (vars t d ++ []) (vars t' d ++ []) := trails_vars hstart hstop d .nil
    rwa [List.append_nil, List.append_nil] at h
  | method d =>
    simp only [Node.script, hstart, separated_congr hstart, List.append_assoc, List.cons_append]
    refine .after _ (.after _ (.after _ (.after _ (.child (.weaken (.after _ (.after _ ?_)))))))
    exact trails_params hstart hstop _ _ (trails_clause hstart hstop _ _ (.refl _))
  | constructorDecl d =>
    simp only [Node.script, separated_congr hstart, List.append_assoc]
    exact .after _ (.after _ (trails_params hstart hstop _ _ (trails_clause hstart hstop _ _ (.refl _))))
  | classType scope name args =>
    simp only [Node.script, List.append_assoc]
    exact .after _ (.after _ (by
      have h := trails_enclosed (b := false) hstart hstop "<" ">" args
      simpa only [List.append_assoc] using h))
  | forStmt init cond update body =>
    simp only [Node.script, hstart, separated_congr hstart, List.append_assoc]
    refine .after _ (.after _ (trails_list hstart hstop _ (.after _ (.after _ (.after _ ?_)))))
    cases update with
    | nil => exact .refl _
    | cons first rest =>
      simp only [List.append_assoc]
      exact .after _ (trails_list hstart hstop _ (.refl _))
  | call scope name args =>
    simp only [Node.script, List.append_assoc]
    exact .after _ (.after _ (trails_args hstart hstop _ _ _))
  | assign target op value =>
    simp only [Node.script, hstart]
    exact .child (trails_glue _ _ (hstop _) fun _ => .refl _)
  | binary left op right =>
    simp only [Node.script, hstart]
    exact .child (trails_glue _ _ (hstop _) fun _ => .refl _)
  | newObject ty args =>
    simp only [Node.script, separated_congr hstart, List.append_assoc]
    exact .after _ (.stroke (.child (trails_args_stop hstart hstop _ _ _)))
  | lambda ids isParenthesized body =>
    cases isParenthesized with
    | true =>
      simp only [Node.script, hstart, if_true, List.append_assoc]
      refine .after _ (trails_list_getLast hstart hstop ids ?_)
      by_cases hlast : ids.getLast? = some old
      · -- the bracket comes between the child and the token
        rw [decide_eq_true hlast]
        exact .loose (fun _ h => by cases h) (fun _ h => by cases h)
          (.loose (fun _ h => by cases h) (fun _ h => by cases h) (.refl _))
      · rw [getLast?_bind_congr hstop hlast]
        exact .refl _
    | false =>
      simp only [Node.script, hstart, Bool.false_eq_true, if_false, List.append_assoc]
      exact trails_list_getLast hstart hstop ids (trails_glue _ _ (getLast?_bind_congr hstop) fun _ => .refl _)
  | conditional cond yes no =>
    simp only [Node.script, hstart]
    exact .child (trails_glue _ _ (hstop _) fun _ => .child (trails_glue _ _ (hstop _) fun _ => .refl _))
  | indexExpr array index =>
    simp only [Node.script, hstart]
    exact .child (trails_glue _ _ (hstop _) fun _ => .refl _)
  | _ =>
    simp only [Node.script, hstart, separated_congr hstart, separatedAll_congr hstart, accessor_congr hstart]
    exact .refl _

end UniformAccess
