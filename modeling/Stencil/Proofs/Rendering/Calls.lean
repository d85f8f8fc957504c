import Stencil.Proofs.Rendering.Attachments

/-! # The calls of a rendering

`Engine.calls` lists the calls that `Rendering.call` makes, with the values of the slot and the vault at this
time, which together say what the function is given (`run_call_given`). That these calls are made and no others
is seen by functions that stop at some arguments: with such functions a rendering stops at the first call of
the list that has one of the arguments, and it is what it was if there is none (`Engine.makes_calls`). What
functions would do with other arguments makes no difference then (`Engine.render_of_makes`). -/
set_option autoImplicit false
namespace Stencil

/-! ## Other functions -/

theorem NameMap.lookup_map_values {α β : Type} (g : α → β) (name : Text) (es : List (Text × α)) :
    (es.map fun (n, a) => (n, g a)).lookup name = (es.lookup name).map g := by
  induction es with
  | nil => rfl
  | cons e es ih =>
      obtain ⟨n, a⟩ := e
      rw [List.map_cons, lookup_cons, lookup_cons, ih]
      split <;> rfl

def Engine.adapt (g : Function → Function) (engine : Engine) : Engine where
  functions := { entries := engine.functions.entries.map fun (name, f) => (name, g f) }

/-- The function, but with an error for some arguments. -/
def Function.stopping (stops : List Value → Bool) (e : List Value → Error) (f : Function) : Function :=
  { f with run := fun args c => if stops args then (.error (e args), c) else f.run args c }

section

variable (g : Function → Function) (engine : Engine)

theorem Engine.get?_adapt (name : Text) :
    (engine.adapt g).functions.get? name = (engine.functions.get? name).map g :=
  NameMap.lookup_map_values g name engine.functions.entries

theorem Engine.contains_adapt : (engine.adapt g).functions.contains = engine.functions.contains := by
  funext name
  rw [NameMap.contains, get?_adapt, Option.isSome_map, NameMap.contains]

theorem Engine.adapt_adapt (g' : Function → Function) :
    (engine.adapt g).adapt g' = engine.adapt fun f => g' (g f) := by
  simp [adapt]

theorem Rendering.defineAll_adapt (first : Bool) (ns : List Node) :
    defineAll (engine.adapt g) first ns = defineAll engine first ns := by
  induction ns with
  | nil => rfl
  | cons n ns ih =>
      cases n with
      | text t => exact ih
      | slot s z => exact ih
      | define d source => simp only [defineAll, Engine.contains_adapt, ih]

end

/-! ## The calls -/

namespace Rendering

structure Call where
  args : List Value
  vault : Vault

/-- What the function of the call is given (`run_call_given`). -/
def Call.given (k : Call) : List Value := k.args.map (Value.restored k.vault)

def call? (engine : Engine) (w : Work) : Node → Option Call
  | .text _ => none
  | .define _ _ => none
  | .slot s _ => (callee? engine w.context.definitions s).map fun f => ⟨f.arrange s.args, w.vault⟩

/-- The calls of the nodes, as they are made. After a failure there are no more. -/
def calls (engine : Engine) (w : Work) : List Node → List Call
  | [] => []
  | n :: rest => calls engine w rest ++
    match (outcomes engine rest).run.run w with
    | (.ok _, w') => (call? engine w' n).toList
    | (.error _, _) => []

def passCalls (engine : Engine) (first : Bool) (t : Text) (w : Work) : List Call :=
  match parse t with
  | .ok ns =>
    match (defineAll engine first ns).run.run w with
    | (.ok _, w') => calls engine w' ns
    | (.error _, _) => []
  | .error _ => []

def passesCalls (engine : Engine) : Nat → Bool → Text → Work → List (List Call)
  | 0, _, _, _ => []
  | n + 1, first, t, w => passCalls engine first (masked first t w).1 (masked first t w).2 ::
    match (pass engine first (masked first t w).1).run.run (masked first t w).2 with
    | (.ok (u, true), w') => passesCalls engine n false u w'
    | _ => []

/-! ## Runs that stop -/

/-- The second run stops at the first call that has one of the arguments; without one it is the first run. -/
def Stops {α σ : Type} (stops : List Value → Bool) (e : List Value → Error) (ks : List Call)
    (r r' : Except Error α × σ) : Prop :=
  match ks.find? fun k => stops k.given with
  | some k => r'.1 = .error (e k.given)
  | none => r' = r

variable {α β : Type} {stops : List Value → Bool} {e : List Value → Error} {engine : Engine}

namespace Stops

theorem refl {σ : Type} (r : Except Error α × σ) : Stops stops e [] r r := rfl

/-- The calls of the first step, and then those of the second one, which is not run after a failure. -/
theorem bind {p q : Rendering α} {f g : α → Rendering β} {ks later : List Call} {w : Work}
    (h : Stops stops e ks (p.run.run w) (q.run.run w))
    (hok : ∀ x u, p.run.run w = (.ok x, u) →
      Stops stops e later ((f x).run.run u) ((g x).run.run u))
    (herror : ∀ b u, p.run.run w = (.error b, u) → later = []) :
    Stops stops e (ks ++ later) ((p >>= f).run.run w) ((q >>= g).run.run w) := by
  unfold Stops at h
  cases hfind : ks.find? fun k => stops k.given with
  | some k =>
      rw [hfind] at h
      simp only [Stops, List.find?_append, hfind, Option.some_or]
      rw [run_bind]
      cases hq : q.run.run w with
      | mk r u =>
          rw [hq] at h
          obtain rfl : r = .error (e k.given) := h
          rfl
  | none =>
      rw [hfind] at h
      simp only [Stops, List.find?_append, hfind, Option.none_or]
      rw [run_bind, run_bind, show q.run.run w = p.run.run w from h]
      cases hp : p.run.run w with
      | mk r u =>
          cases r with
          | ok x => exact hok x u hp
          | error b =>
              obtain rfl := herror b u hp
              rfl

/-- The first step is the same and makes no calls. -/
theorem after {p : Rendering α} {f g : α → Rendering β} {ks : List Call} {w : Work}
    (hok : ∀ x u, p.run.run w = (.ok x, u) → Stops stops e ks ((f x).run.run u) ((g x).run.run u))
    (herror : ∀ b u, p.run.run w = (.error b, u) → ks = []) :
    Stops stops e ks ((p >>= f).run.run w) ((p >>= g).run.run w) :=
  bind (.refl _) hok herror

/-- The second step makes no calls. -/
theorem bind_same {p q : Rendering α} {f : α → Rendering β} {ks : List Call} {w : Work}
    (h : Stops stops e ks (p.run.run w) (q.run.run w)) :
    Stops stops e ks ((p >>= f).run.run w) ((q >>= f).run.run w) := by
  have hbind := h.bind (f := f) (g := f) (fun _ _ _ => .refl _) fun _ _ _ => rfl
  rwa [List.append_nil] at hbind

/-- What is seen of the state changes nothing. -/
theorem map {σ τ : Type} {ks : List Call} {r r' : Except Error α × σ} (h : Stops stops e ks r r')
    (g : σ → τ) : Stops stops e ks (r.1, g r.2) (r'.1, g r'.2) := by
  unfold Stops at h ⊢
  cases hfind : ks.find? fun k => stops k.given with
  | some k => rwa [hfind] at h
  | none =>
      rw [hfind] at h
      rw [h]

end Stops

/-- A call gives its function `Call.given`. -/
theorem run_call_given (f : Function) (k : Call) (c : Context) :
    (call f k.args).run.run ⟨c, k.vault⟩ =
      let (result, after) := f.run k.given { c with attachments := [] }
      (result.map (·, after.attachments),
        ⟨{ after with attachments := c.attachments }, k.vault⟩) := run_call f k.args ⟨c, k.vault⟩

theorem stops_call (f : Function) (k : Call) (c : Context) :
    Stops stops e [k] ((call f k.args).run.run ⟨c, k.vault⟩)
      ((call (f.stopping stops e) k.args).run.run ⟨c, k.vault⟩) := by
  rw [run_call_given, run_call_given]
  by_cases hstops : stops k.given = true
  · simp [Stops, Function.stopping, hstops, Except.map]
  · simp [Stops, Function.stopping, hstops]

/-- A slot that is an expression, or that the table or nothing replaces, makes no call. -/
theorem stops_slot? (s : Slot) (z : Text) (w : Work) :
    Stops stops e (call? engine w (.slot s z)).toList ((slot? engine s).run.run w)
      ((slot? (engine.adapt (Function.stopping stops e)) s).run.run w) := by
  unfold slot?
  cases hexpr : s.expr with
  | some a =>
      rw [call?, callee?_of_expr hexpr]
      exact .refl _
  | none =>
      simp only [run_bind_ok _ (run_get w)]
      cases hname : w.context.definitions.get? s.name with
      | some d =>
          rw [call?, callee?_of_get? hname]
          exact .refl _
      | none =>
          rw [call?, callee?_of_free hexpr hname, Engine.get?_adapt]
          cases engine.functions.get? s.name with
          | none => exact .refl _
          | some f =>
              simp only [Option.map_some, Option.toList_some, run_bind_ok _ (run_warn _ w)]
              exact (stops_call f ⟨f.arrange s.args, w.vault⟩ _).bind_same

theorem stops_outcome (n : Node) (w : Work) :
    Stops stops e (call? engine w n).toList ((outcome engine n).run.run w)
      ((outcome (engine.adapt (Function.stopping stops e)) n).run.run w) := by
  cases n with
  | text t => exact .refl _
  | define d source => exact .refl _
  | slot s z => exact (stops_slot? s z w).bind_same

theorem stops_outcomes (ns : List Node) (w : Work) :
    Stops stops e (calls engine w ns) ((outcomes engine ns).run.run w)
      ((outcomes (engine.adapt (Function.stopping stops e)) ns).run.run w) := by
  induction ns with
  | nil => exact .refl _
  | cons n ns ih =>
      -- the later nodes are treated first
      refine ih.bind (fun later u hlater => ?_) fun b u hlater => by rw [hlater]
      rw [hlater]
      exact (stops_outcome n u).bind_same

theorem stops_pass (first : Bool) (t : Text) (w : Work) :
    Stops stops e (passCalls engine first t w) ((pass engine first t).run.run w)
      ((pass (engine.adapt (Function.stopping stops e)) first t).run.run w) := by
  unfold passCalls
  cases ht : parse t with
  | error b =>
      rw [pass, pass, ht]
      exact .refl _
  | ok ns =>
      rw [pass_of_parse ht, pass_of_parse ht, defineAll_adapt]
      refine .after (fun _ u hdefine => ?_) fun b u hdefine => by simp only [hdefine]
      simp only [hdefine]
      exact (stops_outcomes ns u).bind_same

/-- By induction on the number of passes. -/
theorem stops_passes : ∀ (n : Nat) (first : Bool) (t : Text) (w : Work),
    Stops stops e (passesCalls engine n first t w).flatten ((passes engine n first t).run.run w)
      ((passes (engine.adapt (Function.stopping stops e)) n first t).run.run w) := by
  intro n
  induction n with
  | zero => intro first t w; exact .refl _
  | succ n ih =>
      intro first t w
      rw [run_passes_succ, run_passes_succ, passesCalls, List.flatten_cons]
      refine (stops_pass first _ _).bind (fun r u hpass => ?_) fun b u hpass => by simp [hpass]
      obtain ⟨x, changed⟩ := r
      simp only [hpass]
      cases changed with
      | true => exact ih false x u
      | false =>
          simp only [Bool.false_eq_true, if_false]
          exact .refl _

end Rendering

namespace Engine

open Rendering

/-- The calls of a rendering, pass by pass. Listing the slots calls nothing. -/
def calls (engine : Engine) (t : Text) (c : Context) : List (List Call) :=
  if c.options.matchesOnly then []
  else passesCalls engine maxPasses true (prepare t).1 ⟨c, (prepare t).2⟩

/-- The rendering makes these calls and no others: functions that stop at some arguments, with an error that
says which, stop it at the first of the calls with such arguments, and leave it as it is if there is none. -/
def Makes (engine : Engine) (t : Text) (c : Context) (ks : List Call) : Prop :=
  ∀ stops e, Stops stops e ks (engine.render t c)
    ((engine.adapt (Function.stopping stops e)).render t c)

theorem makes_calls (engine : Engine) (t : Text) (c : Context) :
    engine.Makes t c (engine.calls t c).flatten := by
  intro stops e
  cases hmatches : c.options.matchesOnly with
  | true =>
      rw [calls, if_pos hmatches, render_slots _ t hmatches, render_slots _ t hmatches]
      exact .refl _
  | false =>
      rw [calls, if_neg (by simp [hmatches]), render, render, run_whole _ t hmatches,
        run_whole _ t hmatches]
      exact (stops_passes maxPasses true _ _).bind_same.map Work.context

/-- What functions would do with arguments that no call has makes no difference. -/
theorem render_of_makes {engine engine' : Engine} {t : Text} {c : Context} {ks ks' : List Call}
    (h : engine.Makes t c ks) (h' : engine'.Makes t c ks') {stops : List Value → Bool}
    (hks : ∀ k ∈ ks, stops k.given = false)
    (hsame : ∀ e, engine'.adapt (Function.stopping stops e) = engine.adapt (Function.stopping stops e)) :
    engine'.render t c = engine.render t c := by
  have hnone : (ks.find? fun k => stops k.given) = none := by simpa using hks
  have hrender : ∀ e, (engine'.adapt (Function.stopping stops e)).render t c = engine.render t c := by
    intro e
    have hstops := h stops e
    rw [Stops, hnone] at hstops
    rw [hsame, hstops]
  cases hfind : ks'.find? fun k => stops k.given with
  | none =>
      have hstops := h' stops fun _ => .invalidPath
      rw [Stops, hfind] at hstops
      rw [← hstops, hrender]
  | some k =>
      -- a rendering that stops shows the error, but this one does not depend on it
      have herror : ∀ b : Error, (engine.render t c).1 = .error b := by
        intro b
        have hstops := h' stops fun _ => b
        rw [Stops, hfind] at hstops
        rw [← hrender, hstops]
      have hclash := (herror .invalidPath).symm.trans (herror .imageArgument)
      cases hclash

end Engine
end Stencil
