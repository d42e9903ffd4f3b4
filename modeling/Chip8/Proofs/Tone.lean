import Chip8.Runner.History

/-!
# The tone follows the sound timer

A runner switches the tone exactly on the edges of the sound timer's level, taken after each cycle
of a frame. Between two frames the host may leave any machine at all in the runner.
-/
namespace Chip8

namespace Machine

/-- A sound timer that expires in a cycle is silent after it. -/
theorem running_of_soundStopped {m : Machine} (h : m.step.answer.soundStopped = true) :
    m.step.machine.sound.running = false := by
  have he : m.fetch.executeWord.machine.sound.expires = true := h
  exact ((Timer.expires_iff _).mp he).2

end Machine

namespace Runner

/-- The calls that a change of the level asks for. -/
def edge : Bool → Bool → List DeviceCall
  | false, true => [.startSound]
  | true, false => [.stopSound]
  | _, _ => []

def edges : Bool → List Bool → List (List DeviceCall)
  | _, [] => []
  | before, after :: rest => edge before after :: edges after rest

def isTone : DeviceCall → Bool
  | .startSound | .stopSound => true
  | _ => false

/-- The tone that is switched for the `k`-th time: on, off, on, ... -/
def tone (k : Nat) : DeviceCall := if k % 2 = 0 then .startSound else .stopSound

def toneLog : DeviceCall → Log
  | .startSound => [.soundOn]
  | .stopSound => [.soundOff]
  | _ => []

theorem edge_length (before after : Bool) : (edge before after).length ≤ 1 := by
  cases before <;> cases after <;> decide

theorem isTone_of_mem_edge {before after : Bool} {c : DeviceCall} (h : c ∈ edge before after) :
    isTone c = true := by
  cases before <;> cases after <;> simp only [edge, List.mem_cons, List.not_mem_nil, or_false] at h
  · rw [h, isTone]
  · rw [h, isTone]

theorem tone_add_two (k : Nat) : tone (k + 2) = tone k := by
  simp only [tone, Nat.add_mod_right]

theorem edges_append (before : Bool) (ls ms : List Bool) :
    edges before (ls ++ ms) = edges before ls ++ edges (ls.getLastD before) ms := by
  induction ls generalizing before with
  | nil => rfl
  | cons l ls ih =>
    simp only [List.cons_append, edges, ih, List.getLastD_cons]

theorem edges_length_le {before : Bool} {ls : List Bool} {cs : List DeviceCall}
    (h : cs ∈ edges before ls) : cs.length ≤ 1 := by
  induction ls generalizing before with
  | nil => cases h
  | cons l ls ih =>
    rcases List.mem_cons.mp h with rfl | h
    · exact edge_length before l
    · exact ih h

theorem map_tone_succ (n b : Nat) :
    (List.range (n + 1)).map (fun k => tone (k + b)) =
      tone b :: (List.range n).map fun k => tone (k + (b + 1)) := by
  rw [List.range_succ_eq_map, List.map_cons, List.map_map, Nat.zero_add]
  congr 1
  apply List.map_congr_left
  intro k _
  rw [Function.comp_apply, Nat.succ_eq_add_one, Nat.add_assoc, Nat.add_comm 1 b]

/-- Edges alternate, and the first one leaves the level that the list starts from. -/
theorem edges_flatten (before : Bool) (ls : List Bool) :
    ∃ n, (edges before ls).flatten = (List.range n).map fun k => tone (k + before.toNat) := by
  induction ls generalizing before with
  | nil => exact ⟨0, rfl⟩
  | cons l ls ih =>
    obtain ⟨n, hn⟩ := ih l
    rw [edges, List.flatten_cons, hn]
    cases before with
    | false =>
      cases l with
      | false => exact ⟨n, rfl⟩
      | true => exact ⟨n + 1, (map_tone_succ n 0).symm⟩
    | true =>
      cases l with
      | true => exact ⟨n, rfl⟩
      | false =>
        refine ⟨n + 1, (Eq.trans (map_tone_succ n 1) ?_).symm⟩
        simp only [tone_add_two]
        rfl

/-- Unless the event of the cycle contradicts the timer, the tone goes where the timer stands. -/
theorem updateSound_eq {r : Runner} {c : Cycle}
    (h : c.soundStopped = true → r.machine.sound.running = false) :
    r.updateSound c =
      ⟨{ r with playing := r.machine.sound.running }, (), edge r.playing r.machine.sound.running,
        (edge r.playing r.machine.sound.running).flatMap toneLog⟩ := by
  obtain ⟨m, n, playing⟩ := r
  simp only at h ⊢
  cases hs : c.soundStopped <;> cases hr : m.sound.running <;> cases playing <;>
    simp_all [updateSound, edge, toneLog]

/-- The event of a cycle says nothing that the timer does not say. -/
theorem updateSound_forgets_event {r : Runner} {c : Cycle}
    (h : c.soundStopped = true → r.machine.sound.running = false) :
    r.updateSound c = r.updateSound { c with soundStopped := false } := by
  have hsilent : r.updateSound { c with soundStopped := false } = _ :=
    updateSound_eq fun hs => Bool.noConfusion hs
  rw [updateSound_eq h, hsilent]

theorem cycle_eq (r : Runner) :
    r.cycle.runner =
        { r with machine := r.machine.step.machine
                 playing := r.machine.step.machine.sound.running } ∧
      r.cycle.answer = r.machine.step.answer ∧
      r.cycle.calls = edge r.playing r.machine.step.machine.sound.running := by
  have hs : ({ r with machine := r.machine.step.machine } : Runner).updateSound
      r.machine.step.answer = _ := updateSound_eq Machine.running_of_soundStopped
  refine ⟨?_, ?_, ?_⟩ <;> simp only [cycle, hs]

/-- A cycle of a frame as it sounds: the level after it and the calls that it made. -/
structure Beat where
  level : Bool
  calls : List DeviceCall

def beats : Nat → Runner → List Beat
  | 0, _ => []
  | n + 1, r =>
    ⟨r.cycle.runner.machine.sound.running, r.cycle.calls⟩ :: beats n r.cycle.runner

theorem beats_calls (n : Nat) (r : Runner) :
    (beats n r).map Beat.calls = edges r.playing ((beats n r).map Beat.level) := by
  induction n generalizing r with
  | zero => rfl
  | succ n ih =>
    obtain ⟨hr, _, hc⟩ := r.cycle_eq
    simp only [beats, List.map_cons, edges, ih, hc]
    simp only [hr]

theorem cycles_calls (n : Nat) (r : Runner) :
    (cycles n r).calls = ((beats n r).map Beat.calls).flatten := by
  induction n generalizing r with
  | zero => rfl
  | succ n ih => simp only [cycles, beats, List.map_cons, List.flatten_cons, ih]

/-- After a cycle the runner plays what the timer says. -/
theorem cycles_playing (n : Nat) (r : Runner) :
    (cycles n r).runner.playing = ((beats n r).map Beat.level).getLastD r.playing ∧
      (0 < n → (cycles n r).runner.playing = (cycles n r).runner.machine.sound.running) := by
  induction n generalizing r with
  | zero => exact ⟨rfl, fun h => by omega⟩
  | succ n ih =>
    obtain ⟨hr, _, _⟩ := r.cycle_eq
    have hp : r.cycle.runner.playing = r.cycle.runner.machine.sound.running := by rw [hr]
    obtain ⟨hlast, hrun⟩ := ih r.cycle.runner
    refine ⟨?_, fun _ => ?_⟩
    · simp only [cycles, beats, List.map_cons, List.getLastD_cons, hlast, hp]
    · cases n with
      | zero => exact hp
      | succ n => exact hrun (by omega)

theorem cyclesPerFrame_cycles (n : Nat) (r : Runner) :
    (cycles n r).runner.cyclesPerFrame = r.cyclesPerFrame := by
  induction n generalizing r with
  | zero => rfl
  | succ n ih =>
    obtain ⟨hr, _, _⟩ := r.cycle_eq
    simp only [cycles, ih, hr]

theorem present_eq (r : Runner) :
    r.present = ⟨{ r with machine := r.machine.clearDrawn }, r.machine.drawn,
      if r.machine.drawn then [.display r.machine.display] else [], []⟩ := by
  unfold present
  cases h : r.machine.drawn with
  | true => rfl
  | false =>
    have hclear : r.machine.clearDrawn = r.machine := by
      rw [Machine.clearDrawn, ← h]
    simp [hclear]

/-- The cycles of a frame, from the sampled keys on. -/
def framed (r : Runner) (keys : Keypad) : Report (List Cycle) :=
  cycles r.cyclesPerFrame (r.sampleKeys keys)

/-- What a frame does, from what its cycles do. -/
theorem frame_eq (r : Runner) (keys : Keypad) :
    let ran := r.framed keys
    r.frame keys =
      ⟨{ ran.runner with machine := ran.runner.machine.clearDrawn },
        ⟨ran.answer.length, ran.answer.countP fun c => c.fault.isSome, ran.runner.machine.drawn⟩,
        .readKeys :: (ran.calls ++
          if ran.runner.machine.drawn then [.display ran.runner.machine.display] else []),
        ran.log⟩ := by
  intro ran
  have hframe : r.frame keys = ⟨ran.runner.present.runner, ⟨_, _, ran.runner.present.answer⟩,
    .readKeys :: (ran.calls ++ ran.runner.present.calls), ran.log ++ ran.runner.present.log⟩ := rfl
  rw [hframe, present_eq, List.append_nil]
  rfl

/-- What a host does: run a frame, or leave another machine in the runner. -/
inductive Act
  | frame (keys : Keypad)
  | change (m : Machine)

def act (r : Runner) : Act → Report (List Beat)
  | .frame keys =>
    (r.frame keys).map fun _ => beats r.cyclesPerFrame (r.sampleKeys keys)
  | .change m => ⟨{ r with machine := m }, [], [], []⟩

def actAll : List Act → Runner → Report (List Beat)
  | [], r => ⟨r, [], [], []⟩
  | a :: as, r =>
    let first := r.act a
    let rest := actAll as first.runner
    ⟨rest.runner, first.answer ++ rest.answer, first.calls ++ rest.calls, first.log ++ rest.log⟩

theorem isTone_of_mem_edges {before : Bool} {ls : List Bool} {c : DeviceCall}
    (h : c ∈ (edges before ls).flatten) : isTone c = true := by
  induction ls generalizing before with
  | nil => simp [edges] at h
  | cons l ls ih =>
    rw [edges, List.flatten_cons, List.mem_append] at h
    rcases h with h | h
    · exact isTone_of_mem_edge h
    · exact ih h

theorem isTone_of_mem_cycles {n : Nat} {r : Runner} {c : DeviceCall}
    (h : c ∈ (cycles n r).calls) : isTone c = true := by
  rw [cycles_calls, beats_calls] at h
  exact isTone_of_mem_edges h

theorem frame_tones (r : Runner) (keys : Keypad) :
    (r.frame keys).calls.filter isTone = (r.framed keys).calls := by
  have htones : (r.framed keys).calls.filter isTone = (r.framed keys).calls :=
    List.filter_eq_self.mpr fun c hc => isTone_of_mem_cycles hc
  rw [frame_eq]
  simp only [isTone, Bool.false_eq_true, not_false_eq_true, List.filter_cons_of_neg,
    List.filter_append, htones]
  split <;> simp [isTone]

theorem frame_playing (r : Runner) (keys : Keypad) (h : 0 < r.cyclesPerFrame) :
    (r.frame keys).runner.playing = (r.frame keys).runner.machine.sound.running := by
  rw [frame_eq]
  exact (cycles_playing _ _).2 h

/-- A part of a history in which the tone kept to the level of the sound timer. -/
structure InTune (r : Runner) (done : Report (List Beat)) : Prop where
  rate : done.runner.cyclesPerFrame = r.cyclesPerFrame
  beats : done.answer.map Beat.calls = edges r.playing (done.answer.map Beat.level)
  playing : done.runner.playing = (done.answer.map Beat.level).getLastD r.playing
  calls : done.calls.filter isTone = (done.answer.map Beat.calls).flatten

theorem act_inTune (r : Runner) (a : Act) : InTune r (r.act a) := by
  cases a with
  | change m => exact ⟨rfl, rfl, rfl, rfl⟩
  | frame keys =>
    refine ⟨?_, beats_calls _ _, ?_, ?_⟩
    · simp only [act, Report.map, frame_eq, framed, cyclesPerFrame_cycles]
      rfl
    · simp only [act, Report.map, frame_eq]
      exact (cycles_playing _ _).1
    · simp only [act, Report.map, frame_tones]
      exact cycles_calls _ _

theorem actAll_inTune (as : List Act) (r : Runner) : InTune r (actAll as r) := by
  induction as generalizing r with
  | nil => exact ⟨rfl, rfl, rfl, rfl⟩
  | cons a as ih =>
    have hfirst := r.act_inTune a
    have hrest := ih (r.act a).runner
    refine ⟨hrest.rate.trans hfirst.rate, ?_, ?_, ?_⟩
    · simp only [actAll, List.map_append, edges_append, hfirst.beats, hrest.beats, hfirst.playing]
    · simp only [actAll, List.map_append, hrest.playing, hfirst.playing,
        List.getLastD_eq_getLast?, List.getLast?_append, Option.getD_or]
    · simp only [actAll, List.map_append, List.filter_append, List.flatten_append, hfirst.calls,
        hrest.calls]

/-- Frames and commands are acts: a command leaves the machine that it makes. -/
theorem performAll_eq_actAll (es : List Event) (r : Runner) :
    ∃ as, (actAll as r).runner = (performAll es r).runner ∧
      (actAll as r).calls = (performAll es r).calls := by
  induction es generalizing r with
  | nil => exact ⟨[], rfl, rfl⟩
  | cons e es ih =>
    obtain ⟨as, hr, hc⟩ := ih (r.perform e).runner
    cases e with
    | frame keys =>
      exact ⟨.frame keys :: as, hr, congrArg (fun cs => (r.frame keys).calls ++ cs) hc⟩
    | command c => exact ⟨.change (r.machine.perform c).machine :: as, hr, hc⟩

/-- The tone of a new runner around any machine, over any history of frames and changes. -/
theorem tone_follows_level (m : Machine) (n : Nat) (as : List Act) :
    let done := actAll as ((ofMachine m).withCycles n)
    done.answer.map Beat.calls = edges false (done.answer.map Beat.level) ∧
      done.calls.filter isTone = (done.answer.map Beat.calls).flatten ∧
      (∃ k, done.calls.filter isTone = (List.range k).map tone) ∧
      (∀ b ∈ done.answer, b.calls.length ≤ 1) ∧
      (∀ keys, (done.runner.frame keys).runner.playing =
        (done.runner.frame keys).runner.machine.sound.running) ∧
      ∀ r : Runner, ({ r with machine := r.machine.step.machine } : Runner).updateSound
          r.machine.step.answer =
        ({ r with machine := r.machine.step.machine } : Runner).updateSound
          { r.machine.step.answer with soundStopped := false } := by
  intro done
  have h : InTune ((ofMachine m).withCycles n) done := actAll_inTune as _
  have hbeats : done.answer.map Beat.calls = edges false (done.answer.map Beat.level) := h.beats
  have hrate : done.runner.cyclesPerFrame = max 1 n := h.rate
  refine ⟨hbeats, h.calls, ?_, ?_, ?_, ?_⟩
  · rw [h.calls, hbeats]
    exact edges_flatten false _
  · intro b hb
    have hmem : b.calls ∈ edges false (done.answer.map Beat.level) := by
      rw [← hbeats]
      exact List.mem_map_of_mem hb
    exact edges_length_le hmem
  · intro keys
    exact frame_playing _ keys (by rw [hrate]; omega)
  · intro r
    exact updateSound_forgets_event Machine.running_of_soundStopped

/-- A machine in the middle of a beep, with zeros to run. -/
def beeping : Machine := { Machine.powerOn 0 with sound := ⟨3⟩ }

theorem tone_follows_short_beep :
    let done := actAll [.frame Keypad.allUp] ((ofMachine beeping).withCycles 4)
    done.answer.map Beat.level = [true, true, false, false] ∧
      done.calls.filter isTone = [.startSound, .stopSound] := by
  intro done
  have hlevels : done.answer.map Beat.level = [true, true, false, false] := by decide +kernel
  obtain ⟨hcalls, htones, _⟩ := tone_follows_level beeping 4 [.frame Keypad.allUp]
  refine ⟨hlevels, ?_⟩
  calc done.calls.filter isTone
      = (done.answer.map Beat.calls).flatten := htones
    _ = (edges false (done.answer.map Beat.level)).flatten := congrArg List.flatten hcalls
    _ = (edges false [true, true, false, false]).flatten :=
      congrArg (fun ls => (edges false ls).flatten) hlevels

end Runner
end Chip8
