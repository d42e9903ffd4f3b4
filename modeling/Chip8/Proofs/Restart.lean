import Chip8.Proofs.Screen
import Chip8.Proofs.Unrolled

/-!
# A reset forgets all but one edge of the tone

A reset makes the machine of a runner new, but leaves the tone as it was. The machine never looks at
the tone, and the first cycle of the next frame brings it to the level of the sound timer. From
then on the runner is a new one: only the calls of that one cycle tell of the past.
-/
namespace Chip8.Runner

/-- Two runners that can differ in nothing but whether the tone is on. -/
structure Twin (a b : Runner) : Prop where
  machine : a.machine = b.machine
  rate : a.cyclesPerFrame = b.cyclesPerFrame
  busy : 0 < b.cyclesPerFrame

namespace Twin

variable {a b : Runner}

theorem sampleKeys (h : Twin a b) (keys : Keypad) : Twin (a.sampleKeys keys) (b.sampleKeys keys) :=
  ⟨congrArg (fun m => { m with keypad := keys }) h.machine, h.rate, h.busy⟩

/-- A cycle takes the tone from the timer, wherever it was before. -/
theorem cycle (h : Twin a b) :
    a.cycle.runner = b.cycle.runner ∧ a.cycle.answer = b.cycle.answer := by
  obtain ⟨hra, haa, _⟩ := a.cycle_eq
  obtain ⟨hrb, hab, _⟩ := b.cycle_eq
  refine ⟨?_, ?_⟩
  · rw [hra, hrb, h.machine, h.rate]
  · rw [haa, hab, h.machine]

/-- The calls of two twins in their next cycle, from the level that both of them come to. -/
theorem cycle_calls (h : Twin a b) :
    a.cycle.calls = edge a.playing b.cycle.runner.machine.sound.running ∧
      b.cycle.calls = edge b.playing b.cycle.runner.machine.sound.running := by
  obtain ⟨_, _, hca⟩ := a.cycle_eq
  obtain ⟨hrb, _, hcb⟩ := b.cycle_eq
  rw [hca, hcb, hrb, h.machine]
  exact ⟨rfl, rfl⟩

theorem cycles (h : Twin a b) {n : Nat} (hn : 0 < n) :
    (cycles n a).runner = (cycles n b).runner ∧ (cycles n a).answer = (cycles n b).answer ∧
      ∃ later, (cycles n a).calls = a.cycle.calls ++ later ∧
        (cycles n b).calls = b.cycle.calls ++ later := by
  obtain ⟨k, rfl⟩ := Nat.exists_eq_add_of_lt hn
  obtain ⟨hrunner, hanswer⟩ := h.cycle
  rw [Nat.zero_add, Runner.cycles, Runner.cycles, hrunner, hanswer]
  exact ⟨rfl, rfl, _, rfl, rfl⟩

/-- After a frame the twins are one. -/
theorem frame (h : Twin a b) (keys : Keypad) :
    (a.frame keys).runner = (b.frame keys).runner ∧
      (a.frame keys).answer = (b.frame keys).answer ∧
      ∃ later, (a.frame keys).calls = .readKeys :: ((a.sampleKeys keys).cycle.calls ++ later) ∧
        (b.frame keys).calls = .readKeys :: ((b.sampleKeys keys).cycle.calls ++ later) := by
  obtain ⟨hrunner, hanswer, later, hca, hcb⟩ := (h.sampleKeys keys).cycles h.busy
  rw [frame_eq, frame_eq, framed, framed, h.rate, hrunner, hanswer, hca, hcb]
  exact ⟨rfl, rfl, _, congrArg (List.cons _) (List.append_assoc _ later _),
    congrArg (List.cons _) (List.append_assoc _ later _)⟩

theorem pictures_frame (h : Twin a b) (keys : Keypad) :
    (a.frame keys).calls.filterMap picture? = (b.frame keys).calls.filterMap picture? := by
  obtain ⟨_, _, later, hca, hcb⟩ := h.frame keys
  obtain ⟨hta, htb⟩ := (h.sampleKeys keys).cycle_calls
  have hdark : ∀ before after, (edge before after).filterMap picture? = [] := fun _ _ =>
    pictures_of_tones fun _ hc => isTone_of_mem_edge hc
  simp only [hca, hcb, hta, htb, List.filterMap_cons, List.filterMap_append, hdark]

theorem perform (h : Twin a b) (e : Event) :
    Twin (a.perform e).runner (b.perform e).runner ∧ (a.perform e).answer = (b.perform e).answer ∧
      (a.perform e).calls.filterMap picture? = (b.perform e).calls.filterMap picture? := by
  cases e with
  | command c =>
    refine ⟨⟨?_, h.rate, h.busy⟩, ?_, rfl⟩
    · exact congrArg (fun m => (Machine.perform m c).machine) h.machine
    · exact congrArg (fun m => Outcome.answered (Machine.perform m c).answer) h.machine
  | frame keys =>
    obtain ⟨hrunner, hanswer, _⟩ := h.frame keys
    have hrate : (b.frame keys).runner.cyclesPerFrame = b.cyclesPerFrame :=
      b.perform_cyclesPerFrame (.frame keys)
    refine ⟨⟨congrArg Runner.machine hrunner, congrArg Runner.cyclesPerFrame hrunner, ?_⟩,
      congrArg Outcome.framed hanswer, h.pictures_frame keys⟩
    exact hrate.symm ▸ h.busy

theorem performAll (h : Twin a b) (es : List Event) :
    Twin (performAll es a).runner (performAll es b).runner ∧
      (performAll es a).answer = (performAll es b).answer ∧
      (performAll es a).calls.filterMap picture? =
        (performAll es b).calls.filterMap picture? := by
  induction es generalizing a b with
  | nil => exact ⟨h, rfl, rfl⟩
  | cons e es ih =>
    obtain ⟨htwin, hanswer, hpictures⟩ := h.perform e
    obtain ⟨htwins, hanswers, hmore⟩ := ih htwin
    refine ⟨htwins, ?_, ?_⟩
    · simp only [Runner.performAll, hanswer, hanswers]
    · simp only [Runner.performAll, List.filterMap_append, hpictures, hmore]

end Twin

/-- The runner after commands alone. -/
def told (r : Runner) (cs : List Command) : Runner := (performAll (cs.map .command) r).runner

theorem told_playing (r : Runner) (cs : List Command) : (r.told cs).playing = r.playing := by
  rw [told, performAll_commands]

theorem calls_from_frame (r : Runner) (cs : List Command) (keys : Keypad) (es : List Event) :
    (performAll (cs.map .command ++ .frame keys :: es) r).calls =
      ((r.told cs).frame keys).calls ++
        (performAll es ((r.told cs).frame keys).runner).calls := by
  rw [performAll_calls_append, commands_calls]
  rfl

/-- The first cycle of the first frame, with commands before it. -/
def firstCycle (r : Runner) (cs : List Command) (keys : Keypad) : Report Cycle :=
  ((r.told cs).sampleKeys keys).cycle

theorem Twin.told {a b : Runner} (h : Twin a b) (cs : List Command) :
    Twin (a.told cs) (b.told cs) :=
  (h.performAll (cs.map .command)).1

theorem Twin.firstCycle {a b : Runner} (h : Twin a b) (cs : List Command) (keys : Keypad) :
    let level := (b.firstCycle cs keys).runner.machine.sound.running
    (a.firstCycle cs keys).runner = (b.firstCycle cs keys).runner ∧
      (a.firstCycle cs keys).calls = edge a.playing level ∧
      (b.firstCycle cs keys).calls = edge b.playing level := by
  intro level
  have hkeyed := (h.told cs).sampleKeys keys
  obtain ⟨hca, hcb⟩ := hkeyed.cycle_calls
  refine ⟨hkeyed.cycle.1, ?_, ?_⟩
  · rw [← a.told_playing cs]
    exact hca
  · rw [← b.told_playing cs]
    exact hcb

/-- The calls of twins differ in the first cycle of the first frame and nowhere else. -/
theorem Twin.calls {a b : Runner} (h : Twin a b) (cs : List Command) (keys : Keypad)
    (es : List Event) :
    ∃ later,
      (Runner.performAll (cs.map .command ++ .frame keys :: es) a).calls =
          .readKeys :: ((a.firstCycle cs keys).calls ++ later) ∧
        (Runner.performAll (cs.map .command ++ .frame keys :: es) b).calls =
          .readKeys :: ((b.firstCycle cs keys).calls ++ later) := by
  obtain ⟨hrunner, _, later, hca, hcb⟩ := (h.told cs).frame keys
  rw [calls_from_frame, calls_from_frame, hca, hcb, hrunner]
  exact ⟨_, congrArg (List.cons _) (List.append_assoc _ later _),
    congrArg (List.cons _) (List.append_assoc _ later _)⟩

/-- A runner whose machine is reset after any history, beside a new runner around a new machine.
Whatever happens to both from then on, they can be told apart by the tone calls of the first cycle
of the first frame alone, and only if the reset found the tone on. -/
theorem reset_leaves_one_edge (m : Machine) (n : Nat) (past : List Event) (seed : UInt64) :
    let old := (performAll past ((ofMachine m).withCycles n)).runner
    let again := (old.perform (.command (.reset seed))).runner
    let fresh := (ofMachine (Machine.powerOn seed)).withCycles n
    (∀ es,
      (performAll es again).runner.machine = (performAll es fresh).runner.machine ∧
        (performAll es again).answer = (performAll es fresh).answer ∧
        (performAll es again).calls.filterMap picture? =
          (performAll es fresh).calls.filterMap picture?) ∧
      (∀ cs : List Command, (performAll (cs.map .command) again).calls = [] ∧
        (performAll (cs.map .command) fresh).calls = []) ∧
      ∀ (cs : List Command) (keys : Keypad) (es : List Event),
        let events := cs.map .command ++ .frame keys :: es
        let first := again.firstCycle cs keys
        let anew := fresh.firstCycle cs keys
        first.runner = anew.runner ∧
          (∃ later, (performAll events again).calls = .readKeys :: (first.calls ++ later) ∧
            (performAll events fresh).calls = .readKeys :: (anew.calls ++ later)) ∧
          (old.playing = false → first.calls = anew.calls) ∧
          (old.playing = true → anew.runner.machine.sound.running = true →
            first.calls = [] ∧ anew.calls = [.startSound]) ∧
          (old.playing = true → anew.runner.machine.sound.running = false →
            first.calls = [.stopSound] ∧ anew.calls = []) := by
  intro old again fresh
  have hrate : old.cyclesPerFrame = max 1 n := performAll_cyclesPerFrame past _
  have hbusy : 0 < fresh.cyclesPerFrame := Nat.lt_of_lt_of_le Nat.one_pos (Nat.le_max_left 1 n)
  have hmachine : again.machine = fresh.machine :=
    congrArg Reply.machine (old.machine.reset_eq_start seed)
  have htwin : Twin again fresh := ⟨hmachine, hrate, hbusy⟩
  refine ⟨fun es => ?_, fun cs => ⟨commands_calls cs _, commands_calls cs _⟩, ?_⟩
  · obtain ⟨hafter, hanswer, hpictures⟩ := htwin.performAll es
    exact ⟨hafter.machine, hanswer, hpictures⟩
  · intro cs keys es events first anew
    obtain ⟨hrunner, hfirst, hanew⟩ := htwin.firstCycle cs keys
    refine ⟨hrunner, htwin.calls cs keys es, ?_⟩
    have hfirst' : first.calls = edge old.playing anew.runner.machine.sound.running := hfirst
    have hanew' : anew.calls = edge false anew.runner.machine.sound.running := hanew
    rw [hfirst', hanew']
    refine ⟨?_, ?_, ?_⟩
    · intro hoff
      rw [hoff]
    · intro hon hloud
      rw [hon, hloud]
      exact ⟨rfl, rfl⟩
    · intro hon hquiet
      rw [hon, hquiet]
      exact ⟨rfl, rfl⟩

/-- Sets the sound timer to five. -/
def beep : List Command :=
  [.execute (.setConst Registers.first 5), .execute (.setSound Registers.first)]

/-- A reset in the middle of a tone: with nothing to play the next frame ends it, with a beep to
play the tone goes on, and only a new runner has to start it. Before a first frame no tone is on. -/
theorem reset_leaves_one_edge_in_tone :
    let start := (ofMachine beeping).withCycles 1
    let old := (performAll [.frame Keypad.allUp] start).runner
    let again := (old.perform (.command (.reset 7))).runner
    let unused := ((performAll [] start).runner.perform (.command (.reset 7))).runner
    let fresh := (ofMachine (Machine.powerOn 7)).withCycles 1
    ((again.firstCycle [] Keypad.allUp).calls = [.stopSound] ∧
        (fresh.firstCycle [] Keypad.allUp).calls = []) ∧
      ((again.firstCycle beep Keypad.allUp).calls = [] ∧
        (fresh.firstCycle beep Keypad.allUp).calls = [.startSound]) ∧
      (unused.firstCycle beep Keypad.allUp).calls = (fresh.firstCycle beep Keypad.allUp).calls := by
  intro start old again unused fresh
  have hplaying : old.playing = true := by decide +kernel
  have hquiet : (fresh.firstCycle [] Keypad.allUp).runner.machine.sound.running = false := by
    decide +kernel
  have hloud : (fresh.firstCycle beep Keypad.allUp).runner.machine.sound.running = true := by
    decide +kernel
  obtain ⟨_, _, hcalls⟩ := reset_leaves_one_edge beeping 1 [.frame Keypad.allUp] 7
  obtain ⟨_, _, _, _, hstop⟩ := hcalls [] Keypad.allUp []
  obtain ⟨_, _, _, hstart, _⟩ := hcalls beep Keypad.allUp []
  obtain ⟨_, _, hunused⟩ := reset_leaves_one_edge beeping 1 [] 7
  obtain ⟨_, _, hsame, _, _⟩ := hunused beep Keypad.allUp []
  -- unfolding the runners here would run them
  with_reducible exact ⟨hstop hplaying hquiet, hstart hplaying hloud, hsame rfl⟩

end Chip8.Runner
