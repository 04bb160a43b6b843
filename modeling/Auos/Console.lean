import Auos.List

/-!
# Consoles

`console.c` and `putchar` of `io.c`. The consoles are in a list, and a character goes to all of them: for
every console in the list `putchar` calls the function `write` that it was registered with. Here the calls
are collected; what they do is a matter of the console.

## Main definitions

* `registerConsole`, `unregisterConsole`, `putchar` — the source
* `ConsoleRun` — the runs, with what each console should have been given

## Main results

* `putchar_eq` — a character goes to the consoles in the order in which they were registered
* `ConsoleRun.delivers` — a console is given exactly what is put while it is registered, in order
-/

namespace Auos

open Links

variable {ι : Type*} [DecidableEq ι]

/-! ### The code -/

/-- The nodes of the list of the consoles. -/
inductive ConsoleNode (ι : Type*)
  /-- `consoles`. -/
  | consoles
  /-- The field `link` of a console. -/
  | link (console : ι)
  deriving DecidableEq

/-- `register_console`. -/
def registerConsole (L : Links (ConsoleNode ι)) (console : ι) : Links (ConsoleNode ι) :=
  listInsertBefore L .consoles (.link console)

/-- `unregister_console`. -/
def unregisterConsole (L : Links (ConsoleNode ι)) (console : ι) : Links (ConsoleNode ι) :=
  listRemove L (.link console)

/-- The loop of `putchar`, with the calls of `write` in order. -/
def putcharLoop (L : Links (ConsoleNode ι)) (ch : UInt8) :
    ℕ → ConsoleNode ι → Option (List (ι × UInt8))
  | 0, _ => none
  | _ + 1, .consoles => some []
  | rounds + 1, .link console => do
    let calls ← putcharLoop L ch rounds (L.next (.link console))
    some ((console, ch) :: calls)

/-- `putchar`, of the character that its argument is converted to. -/
def putchar (L : Links (ConsoleNode ι)) (rounds : ℕ) (ch : UInt8) : Option (List (ι × UInt8)) :=
  putcharLoop L ch rounds (L.next .consoles)

/-- The characters that a console is given by some calls. -/
def givenTo (console : ι) (calls : List (ι × UInt8)) : List UInt8 :=
  calls.filterMap fun call => if call.1 = console then some call.2 else none

variable {L : Links (ConsoleNode ι)} {registered : List ι} {calls : List (ι × UInt8)} {console : ι}
  {rounds : ℕ} {ch : UInt8} {text : ι → List UInt8} {x : ConsoleNode ι}

/-! ### One call -/

/-- The list holds the consoles that are registered. -/
def Registered (L : Links (ConsoleNode ι)) (registered : List ι) : Prop :=
  L.IsRing .consoles (registered.map .link)

namespace Registered

omit [DecidableEq ι] in
theorem nodup (h : Registered L registered) : registered.Nodup := (List.nodup_cons.mp h.2).2.of_map

theorem init (L : Links (ConsoleNode ι)) : Registered (listInitHead L .consoles) [] :=
  isRing_listInitHead L .consoles

theorem register (h : Registered L registered) (hnew : console ∉ registered) :
    Registered (registerConsole L console) (registered ++ [console]) := by
  have hnot : ConsoleNode.link console ∉ .consoles :: registered.map .link := by
    simpa using hnew
  have hring := IsRing.listInsertBefore h hnot
  rwa [← List.map_singleton, ← List.map_append] at hring

theorem unregister (h : Registered L registered) (hmem : console ∈ registered) :
    Registered (unregisterConsole L console) (registered.erase console) := by
  obtain ⟨front, back, rfl⟩ := List.append_of_mem hmem
  have hfront : console ∉ front := fun hin =>
    (List.nodup_append.mp h.nodup).2.2 console hin console List.mem_cons_self rfl
  have hring : L.IsRing .consoles (front.map .link ++ .link console :: back.map .link) := by
    rw [Registered, List.map_append] at h
    exact h
  rw [Registered, List.erase_append_right _ hfront, List.erase_cons_head, List.map_append]
  exact hring.unlink

end Registered

omit [DecidableEq ι] in
/-- The walk over the rest of the list. -/
theorem putcharLoop_eq (h : L.Path x (registered.map .link) .consoles) :
    putcharLoop L ch rounds (L.next x) =
      if registered.length < rounds then some (registered.map (·, ch)) else none := by
  induction registered generalizing x rounds with
  | nil =>
    cases rounds with
    | zero => rfl
    | succ rounds =>
      rw [h.1, putcharLoop]
      rfl
  | cons console registered ih =>
    cases rounds with
    | zero => rfl
    | succ rounds =>
      rw [h.1.1, putcharLoop, ih h.2, List.length_cons]
      simp only [Nat.add_lt_add_iff_right]
      by_cases hrounds : registered.length < rounds
      · rw [if_pos hrounds, if_pos hrounds]
        rfl
      · rw [if_neg hrounds, if_neg hrounds]
        rfl

omit [DecidableEq ι] in
/-- **A character goes to every registered console**, once, in the order of their registration. -/
theorem putchar_eq (h : Registered L registered) (rounds : ℕ) (ch : UInt8) :
    putchar L rounds ch =
      if registered.length < rounds then some (registered.map (·, ch)) else none :=
  putcharLoop_eq h.1

theorem givenTo_append (console : ι) (calls more : List (ι × UInt8)) :
    givenTo console (calls ++ more) = givenTo console calls ++ givenTo console more :=
  List.filterMap_append

/-- What a console is given of one character. -/
theorem givenTo_map (hnd : registered.Nodup) :
    givenTo console (registered.map (·, ch)) = if console ∈ registered then [ch] else [] := by
  induction registered with
  | nil => rfl
  | cons other registered ih =>
    obtain ⟨hnot, hnd⟩ := List.nodup_cons.mp hnd
    have hcons : givenTo console ((other :: registered).map (·, ch)) =
        givenTo console [(other, ch)] ++ givenTo console (registered.map (·, ch)) :=
      givenTo_append console [(other, ch)] _
    rw [hcons, ih hnd]
    by_cases heq : other = console
    · subst heq
      simp [givenTo, hnot]
    · simp [givenTo, heq, Ne.symm heq]

/-! ### Runs -/

/-- The runs from the empty list on, with the consoles that are registered, the text that was put while
a console was registered, and the calls of `write`. A console is not registered twice, and only those
that are registered are unregistered. -/
inductive ConsoleRun :
    List ι → (ι → List UInt8) → Links (ConsoleNode ι) → List (ι × UInt8) → Prop
  | init (L : Links (ConsoleNode ι)) :
      ConsoleRun [] (fun _ => []) (listInitHead L .consoles) []
  | register {registered : List ι} {text : ι → List UInt8} {L : Links (ConsoleNode ι)}
      {calls : List (ι × UInt8)} {console : ι} :
      ConsoleRun registered text L calls → console ∉ registered →
      ConsoleRun (registered ++ [console]) text (registerConsole L console) calls
  | unregister {registered : List ι} {text : ι → List UInt8} {L : Links (ConsoleNode ι)}
      {calls : List (ι × UInt8)} {console : ι} :
      ConsoleRun registered text L calls → console ∈ registered →
      ConsoleRun (registered.erase console) text (unregisterConsole L console) calls
  | putchar {registered : List ι} {text : ι → List UInt8} {L : Links (ConsoleNode ι)}
      {calls more : List (ι × UInt8)} {rounds : ℕ} (ch : UInt8) :
      ConsoleRun registered text L calls → putchar L rounds ch = some more →
      ConsoleRun registered
        (fun console => if console ∈ registered then text console ++ [ch] else text console) L
        (calls ++ more)

/-- **Every console is given exactly what is put while it is registered**, in order, whatever is
registered and unregistered in between. The list holds the consoles in the order in which they were
registered, and `putchar` returns after one round for each. -/
theorem ConsoleRun.delivers (run : ConsoleRun registered text L calls) :
    (∀ console, givenTo console calls = text console) ∧
      L.IsRing .consoles (registered.map .link) ∧
      ∀ rounds ch, registered.length < rounds →
        Auos.putchar L rounds ch = some (registered.map (·, ch)) := by
  have hinv : (∀ console, givenTo console calls = text console) ∧ Registered L registered := by
    induction run with
    | init L => exact ⟨fun _ => rfl, .init L⟩
    | register _ hnew ih => exact ⟨ih.1, ih.2.register hnew⟩
    | unregister _ hmem ih => exact ⟨ih.1, ih.2.unregister hmem⟩
    | @putchar registered _ _ _ _ _ ch _ hret ih =>
      refine ⟨fun console => ?_, ih.2⟩
      rw [putchar_eq ih.2] at hret
      obtain ⟨-, hcalls⟩ := Option.ite_none_right_eq_some.mp hret
      rw [← Option.some.inj hcalls, givenTo_append, givenTo_map ih.2.nodup, ih.1]
      by_cases hreg : console ∈ registered
      · simp [hreg]
      · simp [hreg]
  exact ⟨hinv.1, hinv.2, fun rounds ch hrounds =>
    (putchar_eq hinv.2 rounds ch).trans (if_pos hrounds)⟩

/-- Two consoles, a character, the first one goes, another character. -/
theorem ConsoleRun.delivers_two : ∃ text L calls, ConsoleRun [true] text L calls ∧
    givenTo false calls = [0x41] ∧ givenTo true calls = [0x41, 0x42] := by
  have hboth := ((ConsoleRun.init ⟨id, id⟩).register (show false ∉ [] by decide)).register
    (show true ∉ [false] by decide)
  have hfirst := hboth.putchar 0x41 (hboth.delivers.2.2 3 0x41 (by decide))
  have hone := hfirst.unregister (show false ∈ [false, true] by decide)
  have hsecond := hone.putchar 0x42 (hone.delivers.2.2 3 0x42 (by decide))
  obtain ⟨hgiven, -⟩ := hsecond.delivers
  exact ⟨_, _, _, hsecond, (hgiven false).trans rfl, (hgiven true).trans rfl⟩

end Auos
