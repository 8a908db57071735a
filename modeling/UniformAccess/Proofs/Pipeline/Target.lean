import UniformAccess.Proofs.Pipeline.Bound
import UniformAccess.Proofs.Resolution.Since
/-!
# Which accesses a round rewrites

All complaints of a round are about the texts that were printed before it. If a complaint resolves an access, the access
is one of the printed tree, and its member started at the position of the complaint, unless the scope of the access was
rewritten earlier in the same round (`rewrites_member`).
-/
namespace UniformAccess

open Resolution (Resolves ends_resolve)

/-! ## The rounds of a run -/

namespace Run

variable {σ ε : Type} {compiler : Compiler σ ε} {s s' : RunState σ} {round left : Nat}

/-- **The rounds of a run**: their numbers, how many more may be resolved, and the states in which they start. -/
inductive Rounds (compiler : Compiler σ ε) (s : RunState σ) : Nat → Nat → RunState σ → Prop
  | first : Rounds compiler s 1 s.pipeline.options.maxRounds ⟨s.pipeline.track, s.compiler⟩
  | next {round left : Nat} {p p' : Pipeline} {c c' : σ} {ds us : List Diagnostic}
      (h : Rounds compiler s round (left + 1) ⟨p, c⟩) (hc : compiler p.sources c = (.ok ds, c')) (hne : ds ≠ [])
      (hall : AttendedAll p.layouts p ds us p') (hlen : us.length ≠ ds.length) :
      Rounds compiler s (round + 1) left ⟨p', c'⟩

/-- **A run goes on with each of its rounds.** -/
theorem Rounds.run_eq (h : Rounds compiler s round left s') :
    Pipeline.run compiler s = rounds compiler round left s' := by
  induction h with
  | first => rfl
  | @next round left p p' c c' ds us _ hc hne hall hlen ih =>
    refine ih.trans ((bind_of_ok rfl).trans ((bind_of_ok (compile_of_ok hc)).trans ?_))
    rw [if_neg (by simpa using hne)]
    have hresolve : (resolveAll p.layouts ds : Run σ ε (List Diagnostic)) ⟨p, c'⟩ = .ok us ⟨p', c'⟩ :=
      resolveAll_eq_ok_iff.2 ⟨rfl, hall⟩
    refine (bind_of_ok hresolve).trans ?_
    rw [if_neg hlen]

theorem Rounds.sound (h : Rounds compiler s round left s') (hs : s.pipeline.Sound) : s'.pipeline.Sound := by
  induction h with
  | first => exact hs.track
  | next _ _ _ hall _ ih => exact (hall.sound ih).1

end Run

/-! ## A round and the trees it printed -/

/-- **What a round has made of each unit.** -/
structure Pipeline.Since (p q : Pipeline) : Prop where
  length_eq : q.units.length = p.units.length
  unit : ∀ (i : Nat) (u v : PipelineUnit), p.units[i]? = some u → q.units[i]? = some v →
    v.name = u.name ∧ Resolution.Since u.tree v.tracked

variable {d : Diagnostic} {ds us : List Diagnostic} {b : Bool} {p q q' : Pipeline}

namespace Pipeline.Since

theorem refl (hp : p.Sound) : Since p p where
  length_eq := rfl
  unit := fun i u v hu hv => by
    cases hu.symm.trans hv
    exact ⟨rfl, .refl (hp u (List.mem_of_getElem? hu))⟩

/-- **A complaint that resolves something resolves an access in the unit that it names.** -/
theorem exists_resolves (h : Since p q) (hd : Attended p.layouts d q true q') :
    ∃ (i : Nat) (u v : PipelineUnit) (tracked : Tracked) (id : NodeId) (node : Node) (scope : NodeId) (member : Ident)
      (found : List NodeId), p.units[i]? = some u ∧ q.units[i]? = some v ∧ v.name = d.unit ∧ v.name = u.name ∧
      Resolution.Since u.tree v.tracked ∧
      Resolves (some u.tree.print.layout) d.pos v.tracked tracked id node scope member found ∧
      q' = { q with units := q.units.set i { v with tracked } } := by
  cases hd with
  | @unit i v _ tracked hi hv hres =>
    obtain ⟨hlt, hname, -⟩ := List.findIdx?_eq_some_iff_getElem.1 hi
    obtain ⟨_, rfl⟩ := List.getElem?_eq_some_iff.1 hv
    have hlt' : i < p.units.length := h.length_eq ▸ hlt
    have hu : p.units[i]? = some p.units[i] := List.getElem?_eq_getElem hlt'
    obtain ⟨hsame, hsince⟩ := h.unit i _ _ hu hv
    have hlayout : p.layouts[i]? = some p.units[i].tree.print.layout := by
      unfold Pipeline.layouts
      rw [List.getElem?_map, hu]
      rfl
    rw [hlayout] at hres
    rcases (ends_resolve hsince.sound.proper _ _).of_eq hres with ⟨hfalse, -⟩ | ⟨-, id, node, scope, member, found, hr⟩
    · cases hfalse
    · exact ⟨i, _, _, tracked, id, node, scope, member, found, hu, hv, by simpa using hname, hsame, hsince, hr, rfl⟩

theorem attended (h : Since p q) (hp : p.Sound) (hd : Attended p.layouts d q b q') : Since p q' := by
  cases b with
  | false =>
    rw [hd.eq_of_false]
    exact h
  | true =>
    obtain ⟨i, u, v, tracked, id, node, scope, member, found, hu, hv, -, hname, hsince, hr, rfl⟩ := h.exists_resolves hd
    refine ⟨(List.length_set).trans h.length_eq, fun j u' v' hu' hv' => ?_⟩
    rw [List.getElem?_set] at hv'
    split at hv'
    · rename_i hij
      subst hij
      cases hu.symm.trans hu'
      split at hv'
      · cases hv'
        exact ⟨hname, hsince.resolves (hp u (List.mem_of_getElem? hu)).proper hr⟩
      · cases hv'
    · exact h.unit j u' v' hu' hv'

theorem attendedAll (h : Since p q) (hp : p.Sound) (hall : AttendedAll p.layouts q ds us q') : Since p q' := by
  induction hall with
  | nil => exact h
  | cons hd _ ih => exact ih (h.attended hp hd)

end Pipeline.Since

variable {σ ε : Type} {compiler : Compiler σ ε} {names : List String} {p₀ p₁ p₂ : Pipeline} {c₀ c : σ}
  {round left : Nat}

/-- **A complaint rewrites the access whose member it is about, or one whose scope was rewritten in the same round.**

In any round that a run comes to, let some complaints be dealt with, and let the next one resolve an access. If the
printed tree of the unit it names is legible and writes the member of every access right after the period and the
scope, then the access is one of that tree, and its member started at the position of the complaint, or its scope is
not in that tree. -/
theorem rewrites_member (hmade : Made Tree.Proper names p₀) (hround : Run.Rounds compiler ⟨p₀, c₀⟩ round left ⟨p, c⟩)
    (hlegible : ∀ u ∈ p.units, u.name = d.unit → u.tree.Legible)
    (hdirect : ∀ u ∈ p.units, u.name = d.unit → u.tree.Direct)
    (hall : AttendedAll p.layouts p ds us p₁) (hd : Attended p.layouts d p₁ true p₂) :
    Pipeline.run compiler ⟨p₀, c₀⟩ = Run.rounds compiler round left ⟨p, c⟩ ∧
    ∃ (i : Nat) (u u₁ u₂ : PipelineUnit) (id scope : NodeId) (name : String) (loc : Loc) (found : List NodeId),
      p.units[i]? = some u ∧ p₁.units[i]? = some u₁ ∧ p₂.units[i]? = some u₂ ∧ u.name = d.unit ∧
      id ∈ u₁.tracked.resolver.pending ∧ Tree.Rewritten u₁.tree u₂.tree id scope name loc found ∧
      u.tree.member? id = some name ∧ (u.tree.MemberAt id d.pos ∨ u.tree.contains scope = false) := by
  have hp : p.Sound := hround.sound hmade.sound
  have hsince := (Pipeline.Since.refl hp).attendedAll hp hall
  obtain ⟨i, u, v, tracked, id, node, scope, member, found, hu, hv, hunit, hname, hsince, hr, rfl⟩ :=
    hsince.exists_resolves hd
  have hmem := List.mem_of_getElem? hu
  have hunit : u.name = d.unit := hname ▸ hunit
  obtain ⟨hmember, hat⟩ := hsince.memberAt (hp u hmem).proper hr (hlegible u hmem hunit) (hdirect u hmem hunit)
  have hset : ({ p₁ with units := p₁.units.set i { v with tracked } } : Pipeline).units[i]? =
      some { v with tracked } := by
    obtain ⟨hi, -⟩ := List.getElem?_eq_some_iff.1 hv
    exact List.getElem?_set_self hi
  exact ⟨hround.run_eq, i, u, v, _, id, scope, member.name, node.loc, found, hu, hv, hset, hunit,
    List.mem_of_find?_eq_some hr.find_eq, hr.rewritten, hmember, hat⟩

/-- A complaint that finds an access in the unit it names resolves something. -/
theorem Attended.exists_of_find? {i : Nat} {u : PipelineUnit} {a : NodeId} {layouts : List Layout} (d : Diagnostic)
    (hi : p.units.findIdx? (·.name == d.unit) = some i) (hu : p.units[i]? = some u) (hp : u.tree.Proper)
    (hfind : u.tracked.resolver.find? u.tree layouts[i]? d.pos = some a) :
    ∃ tracked q, Resolution.resolve layouts[i]? d.pos u.tracked = .ok true tracked ∧
      q.units = p.units.set i { u with tracked } ∧ Attended layouts d p true q := by
  obtain ⟨b, tracked, hres, ⟨-, -, hnone⟩ | ⟨rfl, -⟩⟩ := ends_resolve (s := u.tracked) hp layouts[i]? d.pos
  · cases hfind.symm.trans hnone
  · exact ⟨tracked, _, hres, rfl, .unit hi hu hres⟩

/-- The tree of `class Reader { { this.count; this.count; } }`. -/
def rereader : Tree :=
  { root := ⟨0⟩
    cells := #[
      some ⟨none, .synthetic, .unit { types := [⟨1⟩] }⟩,
      some ⟨some ⟨0⟩, .span ⟨⟨1, 1⟩, ⟨1, 45⟩⟩,
        .classDecl { name := .placed ⟨1, 7⟩ "Reader", lbrace := .point ⟨1, 14⟩, members := [⟨2⟩] }⟩,
      some ⟨some ⟨1⟩, .span ⟨⟨1, 16⟩, ⟨1, 43⟩⟩, .initializer false ⟨3⟩⟩,
      some ⟨some ⟨2⟩, .span ⟨⟨1, 16⟩, ⟨1, 43⟩⟩, .block [⟨4⟩, ⟨7⟩]⟩,
      some ⟨some ⟨3⟩, .span ⟨⟨1, 18⟩, ⟨1, 29⟩⟩, .exprStmt ⟨5⟩⟩,
      some ⟨some ⟨4⟩, .span ⟨⟨1, 18⟩, ⟨1, 28⟩⟩, .fieldAccess ⟨6⟩ (.placed ⟨1, 23⟩ "count")⟩,
      some ⟨some ⟨5⟩, .span ⟨⟨1, 18⟩, ⟨1, 22⟩⟩, .thisExpr⟩,
      some ⟨some ⟨3⟩, .span ⟨⟨1, 30⟩, ⟨1, 41⟩⟩, .exprStmt ⟨8⟩⟩,
      some ⟨some ⟨7⟩, .span ⟨⟨1, 30⟩, ⟨1, 40⟩⟩, .fieldAccess ⟨9⟩ (.placed ⟨1, 35⟩ "count")⟩,
      some ⟨some ⟨8⟩, .span ⟨⟨1, 30⟩, ⟨1, 34⟩⟩, .thisExpr⟩] }

/-- Both accesses are looked after. -/
def rereading : Tracked := ⟨rereader, { properties := ["count"], pending := [⟨5⟩, ⟨8⟩] }⟩

/-- A pipeline of a unit with a property and a unit with two accesses to it. -/
theorem Made.exists_rereading : ∃ p t', Made Tree.Proper ["count"] p ∧ p.track.units =
    [{ name := "Counter.java", tracked := ⟨t', .ofAccesses t' (Lowering.accesses Lowering.counter) ["count"]⟩ },
      { name := "Reader.java", tracked := rereading }] := by
  obtain ⟨p, r, t', hmade, -, -, rfl⟩ := Made.exists_counter
  have hlower : lower {} rereader = .ok { accesses := [⟨5⟩, ⟨8⟩] } rereader := rfl
  exact ⟨_, t', .add hmade hlower (by decide) rfl, rfl⟩

/-- Two complaints of the first round: the one about the first access is resolved, and then the one about the second. -/
theorem rewrites_member_rereading : ∃ p p₁ p₂, Made Tree.Proper ["count"] p ∧
    Attended p.track.layouts ⟨"Reader.java", ⟨1, 23⟩, "no such name"⟩ p.track true p₁ ∧
    Attended p.track.layouts ⟨"Reader.java", ⟨1, 35⟩, "no such name"⟩ p₁ true p₂ ∧
    ∃ (i : Nat) (u u₁ u₂ : PipelineUnit) (id scope : NodeId) (name : String) (loc : Loc) (found : List NodeId),
      p.track.units[i]? = some u ∧ p₁.units[i]? = some u₁ ∧ p₂.units[i]? = some u₂ ∧
      Tree.Rewritten u₁.tree u₂.tree id scope name loc found ∧
      u.tree.member? id = some name ∧ (u.tree.MemberAt id ⟨1, 35⟩ ∨ u.tree.contains scope = false) := by
  obtain ⟨p, t', hmade, hunits⟩ := Made.exists_rereading
  have hround : Run.Rounds Compiler.stubborn ⟨p, 0⟩ 1 p.options.maxRounds ⟨p.track, 0⟩ := .first
  have hreader : ∀ {P : Tree → Prop}, P rereader → ∀ u ∈ p.track.units, u.name = "Reader.java" → P u.tree :=
    fun {P} hP u hu hname => by
      rw [hunits] at hu
      rcases List.mem_cons.1 hu with rfl | hu
      · have hother : "Counter.java" ≠ "Reader.java" := by decide
        exact absurd hname hother
      · rw [List.mem_singleton.1 hu]
        exact hP
  have hu : p.track.units[1]? = some { name := "Reader.java", tracked := rereading } := by rw [hunits]; rfl
  have hlayout : p.track.layouts[1]? = some rereader.print.layout := by
    unfold Pipeline.layouts
    rw [List.getElem?_map, hu]
    rfl
  have hfind : rereading.resolver.find? rereader p.track.layouts[1]? ⟨1, 23⟩ = some ⟨5⟩ := by
    rw [hlayout]
    decide +kernel
  obtain ⟨s₁, p₁, hres, hunits₁, hd⟩ := Attended.exists_of_find? ⟨"Reader.java", ⟨1, 23⟩, "no such name"⟩
    (by rw [hunits]; rfl) hu (by decide) hfind
  have hu₁ : p₁.units[1]? = some { name := "Reader.java", tracked := s₁ } := by
    rw [hunits₁, hunits]
    rfl
  -- the second access is looked for in what the first complaint has left
  have hfind₁ : s₁.resolver.find? s₁.tree p.track.layouts[1]? ⟨1, 35⟩ = some ⟨8⟩ := by
    have hs₁ := congrArg stateOf hres
    rw [hlayout] at hs₁ ⊢
    dsimp only [stateOf] at hs₁
    rw [← hs₁]
    decide +kernel
  have hsound : p₁.Sound := (hd.sound (hround.sound hmade.sound)).1
  obtain ⟨s₂, p₂, -, -, hd₁⟩ := Attended.exists_of_find? ⟨"Reader.java", ⟨1, 35⟩, "no such name"⟩
    (by rw [hunits₁, hunits]; rfl) hu₁ (hsound _ (List.mem_of_getElem? hu₁)).proper hfind₁
  obtain ⟨-, i, u, u₁, u₂, id, scope, name, loc, found, hu, hu₁, hu₂, -, -, hrewritten, hmember, hat⟩ :=
    rewrites_member hmade hround (hreader (by decide +kernel)) (hreader (by decide +kernel)) (.cons hd .nil) hd₁
  exact ⟨p, p₁, p₂, hmade, hd, hd₁, i, u, u₁, u₂, id, scope, name, loc, found, hu, hu₁, hu₂, hrewritten, hmember, hat⟩

end UniformAccess
