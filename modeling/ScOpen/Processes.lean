import ScOpen.Dialogues

/-!
# Processes

A process reads and writes one after the other and comes to a result. Each read and each write has
a role, which says what it is for. A loop whose turns are counted down comes to `spent` when it
needs more of them.
-/

universe u

inductive Process (ρ ι β α : Type u)
  | done (a : α)
  | read (role : ρ) (next : ι → Process ρ ι β α)
  | write (role : ρ) (b : β) (next : Process ρ ι β α)
  | spent

namespace Process

open Dialogues

variable {ρ ι β α γ : Type u}

protected def bind : Process ρ ι β α → (α → Process ρ ι β γ) → Process ρ ι β γ
  | done a, f => f a
  | read role next, f => read role fun r => (next r).bind f
  | write role b next, f => write role b (next.bind f)
  | spent, _ => spent

instance : Monad (Process ρ ι β) where
  pure := done
  bind := Process.bind

@[simp] theorem pure_eq (a : α) : (pure a : Process ρ ι β α) = done a := rfl

@[simp] theorem done_bind (a : α) (f : α → Process ρ ι β γ) : done a >>= f = f a := rfl

@[simp] theorem read_bind (role : ρ) (next : ι → Process ρ ι β α) (f : α → Process ρ ι β γ) :
    read role next >>= f = read role fun r => next r >>= f := rfl

@[simp] theorem write_bind (role : ρ) (b : β) (next : Process ρ ι β α)
    (f : α → Process ρ ι β γ) : write role b next >>= f = write role b (next >>= f) := rfl

@[simp] theorem spent_bind (f : α → Process ρ ι β γ) :
    (spent : Process ρ ι β α) >>= f = spent := rfl

/-! ## One process alone -/

/-- The result, the reads that are left and what has been written. When the reads are used up,
every further one comes to `last`. -/
def run (last : ι) : Process ρ ι β α → List ι → Option (α × List ι × List β)
  | done a, reads => some (a, reads, [])
  | read _ next, [] => (next last).run last []
  | read _ next, r :: reads => (next r).run last reads
  | write _ b next, reads => (next.run last reads).map fun (a, rest, out) => (a, rest, b :: out)
  | spent, _ => none

theorem run_bind (last : ι) (p : Process ρ ι β α) (f : α → Process ρ ι β γ) (reads : List ι) :
    (p >>= f).run last reads = (p.run last reads).bind fun (a, rest, out) =>
      ((f a).run last rest).map fun (c, rest', out') => (c, rest', out ++ out') := by
  induction p generalizing reads with
  | done a => simp [run]
  | read role next ih =>
      cases reads with
      | nil => exact ih last []
      | cons r reads => exact ih r reads
  | write role b next ih =>
      rw [write_bind]
      simp only [run, ih, Option.map_bind, Option.bind_map]
      congr 1
      funext x
      simp [Function.comp_def]
  | spent => rfl

theorem run_bind_of_eq {last : ι} {p : Process ρ ι β α} {reads rest : List ι} {a : α}
    {out : List β} (h : p.run last reads = some (a, rest, out)) (f : α → Process ρ ι β γ) :
    (p >>= f).run last reads =
      ((f a).run last rest).map fun (c, rest', out') => (c, rest', out ++ out') := by
  rw [run_bind, h]
  rfl

/-! ## A process on a line -/

section

variable {arrive : β → ι}

inductive Goes (arrive : β → ι) :
    Process ρ ι β α → List (Event (ρ × β)) → Process ρ ι β α → Prop
  | refl (p : Process ρ ι β α) : Goes arrive p [] p
  | write {role : ρ} {b : β} {p p' : Process ρ ι β α} {events : List (Event (ρ × β))}
      (h : Goes arrive p events p') : Goes arrive (.write role b p) (.puts (role, b) :: events) p'
  | read {role : ρ} {b : β} {next : ι → Process ρ ι β α} {p' : Process ρ ι β α}
      {events : List (Event (ρ × β))} (h : Goes arrive (next (arrive b)) events p') :
      Goes arrive (.read role next) (.takes (role, b) :: events) p'

theorem Goes.trans {p q s : Process ρ ι β α} {events events' : List (Event (ρ × β))}
    (h : Goes arrive p events q) (h' : Goes arrive q events' s) :
    Goes arrive p (events ++ events') s := by
  induction h with
  | refl => exact h'
  | write _ ih => exact .write (ih h')
  | read _ ih => exact .read (ih h')

theorem Goes.bind {p p' : Process ρ ι β α} {events : List (Event (ρ × β))}
    (h : Goes arrive p events p') (f : α → Process ρ ι β γ) :
    Goes arrive (p >>= f) events (p' >>= f) := by
  induction h with
  | refl p => exact .refl _
  | write _ ih => exact .write ih
  | read _ ih => exact .read ih

/-- A process that ends goes over into what comes behind it. -/
theorem Goes.andThen {p : Process ρ ι β α} {a : α} {f : α → Process ρ ι β γ}
    {q : Process ρ ι β γ} {events events' : List (Event (ρ × β))}
    (h : Goes arrive p events (done a)) (h' : Goes arrive (f a) events' q) :
    Goes arrive (p >>= f) (events ++ events') q :=
  (h.bind f).trans h'

end

end Process
