import CppDemos.Lib.Machine
import Mathlib.Data.List.Chain

/-!
# observer.cpp

`WeatherStation` and its observers, which are known by their addresses `O`; what their
`update` does with the data is their own affair. The numbers `F` are passed on only.

`removeObserver` erases from the vector and goes on to the next index all the same, which is
then behind the element that has moved up. So it never looks at what follows an occurrence
(`leaves`), and removes all of them exactly if no two are next to each other. Its index is an
`int`, which must not run over.
-/

namespace CppDemos

open Machine

/-! ## Definitions -/

structure WeatherStation (O F : Type) where
  observers : List O := []
  temperature : F
  humidity : F

/-- A call of `update`. -/
structure ObserverUpdate (O F : Type) where
  observer : O
  temperature : F
  humidity : F

def intMax : Nat := 0x7fffffff

namespace WeatherStation

variable {O F : Type} [DecidableEq O]

def addObserver (s : WeatherStation O F) (observer : O) : WeatherStation O F :=
  { s with observers := s.observers ++ [observer] }

/-- The loop of `removeObserver` from index `i` on; `none` if `i` runs over. -/
def removeFrom (observer : O) (i : Nat) (observers : List O) : Option (List O) :=
  if h : i < observers.length then
    let observers := if observers[i] = observer then observers.eraseIdx i else observers
    if i = intMax then none else removeFrom observer (i + 1) observers
  else some observers
termination_by observers.length - i
decreasing_by
  split
  · rw [List.length_eraseIdx_of_lt h]
    omega
  · omega

def removeObserver (s : WeatherStation O F) (observer : O) : Option (WeatherStation O F) :=
  (removeFrom observer 0 s.observers).map fun observers => { s with observers := observers }

def notifyObservers (s : WeatherStation O F) : List (ObserverUpdate O F) :=
  s.observers.map fun observer => ⟨observer, s.temperature, s.humidity⟩

def setWeatherData (s : WeatherStation O F) (temp hum : F) :
    WeatherStation O F × List (ObserverUpdate O F) :=
  let s := { s with temperature := temp, humidity := hum }
  (s, s.notifyObservers)

/-! ## The loop -/

/-- What the loop leaves of the elements it has still to come to. -/
def leaves (observer : O) : List O → List O
  | [] => []
  | [a] => if a = observer then [] else [a]
  | a :: b :: rest =>
      if a = observer then b :: leaves observer rest else a :: leaves observer (b :: rest)

/-- How often it goes round for them. -/
def rounds (observer : O) : List O → Nat
  | [] => 0
  | [_] => 1
  | a :: b :: rest =>
      if a = observer then rounds observer rest + 1 else rounds observer (b :: rest) + 1

/-- No two occurrences are next to each other. -/
def Apart (observer : O) (observers : List O) : Prop :=
  observers.IsChain fun a b => a = observer → b ≠ observer

variable {observer : O}

theorem removeFrom_cons (before : List O) (a : O) (rest : List O) (hlt : before.length < intMax) :
    removeFrom observer before.length (before ++ a :: rest) =
      if a = observer then removeFrom observer (before.length + 1) (before ++ rest)
      else removeFrom observer (before.length + 1) (before ++ a :: rest) := by
  have hin : before.length < (before ++ a :: rest).length := by simp
  have hat : (before ++ a :: rest)[before.length] = a := by simp
  have herase : (before ++ a :: rest).eraseIdx before.length = before ++ rest := by
    simp [List.eraseIdx_append_of_length_le]
  rw [removeFrom, dif_pos hin]
  simp only [hat, herase, if_neg (Nat.ne_of_lt hlt)]
  split <;> rfl

/-- At the largest index the loop runs over if there is anything to look at. -/
theorem removeFrom_intMax {observers : List O} (h : intMax < observers.length) :
    removeFrom observer intMax observers = none := by
  rw [removeFrom, dif_pos h]
  simp

theorem removeFrom_end (observers : List O) {i : Nat} (h : observers.length ≤ i) :
    removeFrom observer i observers = some observers := by
  rw [removeFrom, dif_neg (Nat.not_lt.mpr h)]

theorem rounds_pos (a : O) : ∀ rest : List O, 1 ≤ rounds observer (a :: rest)
  | [] => Nat.le_refl 1
  | b :: rest => by
      rw [rounds]
      split <;> omega

/-- What the loop does to these elements, behind any others. -/
def Sweeps (observer : O) (rest : List O) : Prop :=
  ∀ before : List O, before.length ≤ intMax →
    removeFrom observer before.length (before ++ rest) =
      if before.length + rounds observer rest ≤ intMax then some (before ++ leaves observer rest)
      else none

theorem Sweeps.behind {rest : List O} (h : Sweeps observer rest) {before : List O}
    (hlt : before.length < intMax) (a : O) :
    removeFrom observer (before.length + 1) (before ++ a :: rest) =
      if before.length + (rounds observer rest + 1) ≤ intMax then
        some (before ++ a :: leaves observer rest)
      else none := by
  have hlength : (before ++ [a]).length = before.length + 1 := List.length_append
  have hone := h (before ++ [a]) (hlength ▸ hlt)
  rw [hlength, Nat.add_assoc, Nat.add_comm 1] at hone
  simpa using hone

theorem sweeps : ∀ rest : List O, Sweeps observer rest
  | [], before, hle => by
      rw [removeFrom_end _ (by simp), rounds, leaves, Nat.add_zero, if_pos hle]
  | a :: rest, before, hle => by
      rcases Nat.eq_or_lt_of_le hle with heq | hlt
      · have hrounds : 1 ≤ rounds observer (a :: rest) := rounds_pos a rest
        rw [heq, removeFrom_intMax (by simp [heq]), if_neg (by omega)]
      · rw [removeFrom_cons before a rest hlt]
        match rest with
        | [] =>
            have hround : before.length + 1 ≤ intMax := hlt
            rw [removeFrom_end (before ++ []) (by simp), rounds, leaves, if_pos hround]
            split
            · rfl
            · rw [removeFrom_end _ (by simp)]
        | b :: rest =>
            rw [leaves, rounds]
            split
            · exact (sweeps rest).behind hlt b
            · exact (sweeps (b :: rest)).behind hlt a

theorem removeObserver_eq {F : Type} (s : WeatherStation O F) (observer : O) :
    s.removeObserver observer =
      if rounds observer s.observers ≤ intMax then
        some { s with observers := leaves observer s.observers }
      else none := by
  have hsweeps : Sweeps observer s.observers := sweeps s.observers
  have hloop := hsweeps [] (Nat.zero_le _)
  rw [List.nil_append, List.length_nil, Nat.zero_add, List.nil_append] at hloop
  rw [removeObserver, hloop]
  split <;> rfl

/-! ## What is left -/

def without (observer : O) (observers : List O) : List O := observers.filter (· ≠ observer)

theorem without_cons_self (rest : List O) :
    without observer (observer :: rest) = without observer rest :=
  List.filter_cons_of_neg (by simp)

theorem without_cons_ne {a : O} (h : a ≠ observer) (rest : List O) :
    without observer (a :: rest) = a :: without observer rest :=
  List.filter_cons_of_pos (by simpa using h)

omit [DecidableEq O] in
theorem apart_cons_ne {a : O} (h : a ≠ observer) (rest : List O) :
    Apart observer (a :: rest) ↔ Apart observer rest := by
  rw [Apart, List.isChain_cons]
  exact and_iff_right fun _ _ heq => absurd heq h

theorem leaves_eq_without_iff :
    ∀ observers : List O, leaves observer observers = without observer observers ↔
      Apart observer observers
  | [] => iff_of_true rfl .nil
  | [a] => by
      refine iff_of_true ?_ (.singleton a)
      by_cases ha : a = observer
      · rw [leaves, if_pos ha, ha, without_cons_self]
        rfl
      · rw [leaves, if_neg ha, without_cons_ne ha]
        rfl
  | a :: b :: rest => by
      by_cases ha : a = observer
      · rw [leaves, if_pos ha, ha, without_cons_self, Apart, List.isChain_cons_cons]
        by_cases hb : b = observer
        · -- the second of the two stays
          refine iff_of_false (fun heq => ?_) fun h => h.1 rfl hb
          have hin : b ∈ without observer (b :: rest) := heq ▸ List.mem_cons_self ..
          exact absurd hb (by simpa using (List.mem_filter.mp hin).2)
        · have hrest : Apart observer (b :: rest) ↔ Apart observer rest := apart_cons_ne hb rest
          rw [without_cons_ne hb, List.cons_inj_right, leaves_eq_without_iff rest, ← hrest]
          exact (and_iff_right fun _ => hb).symm
      · rw [leaves, if_neg ha, without_cons_ne ha, List.cons_inj_right,
          leaves_eq_without_iff (b :: rest), apart_cons_ne ha]

omit [DecidableEq O] in
theorem getLast?_cons_ne {b : O} (h : b ≠ observer) (rest : List O) :
    (b :: rest).getLast? = some observer ↔ rest.getLast? = some observer := by
  rw [List.getLast?_cons, Option.some.injEq]
  cases rest.getLast? with
  | none => simp [h]
  | some c => simp

/-- Where all of them go, the loop goes round once for each element that stays, and once more
for an occurrence at the end. -/
theorem rounds_of_apart :
    ∀ {observers : List O}, Apart observer observers →
      rounds observer observers = (without observer observers).length +
        if observers.getLast? = some observer then 1 else 0
  | [], _ => rfl
  | [a], _ => by
      by_cases ha : a = observer
      · rw [ha, without_cons_self]
        simp [rounds, without]
      · rw [without_cons_ne ha]
        simp [rounds, without, ha]
  | a :: b :: rest, h => by
      rw [rounds, List.getLast?_cons_cons]
      by_cases ha : a = observer
      · obtain ⟨hnext, htail⟩ := List.isChain_cons_cons.mp h
        have hb := hnext ha
        have hrest : Apart observer rest := (apart_cons_ne hb rest).mp htail
        rw [if_pos ha, ha, without_cons_self, without_cons_ne hb, List.length_cons,
          rounds_of_apart hrest]
        simp only [getLast?_cons_ne hb]
        omega
      · have hrest := (apart_cons_ne ha _).mp h
        rw [if_neg ha, without_cons_ne ha, List.length_cons, rounds_of_apart hrest]
        omega

/-- No two occurrences are next to each other, and the index does not run over on its way past
the elements that stay. -/
structure Removable (observer : O) (observers : List O) : Prop where
  apart : Apart observer observers
  short : (without observer observers).length +
    (if observers.getLast? = some observer then 1 else 0) ≤ intMax

theorem removeObserver_of_removable {F : Type} {s : WeatherStation O F}
    (h : Removable observer s.observers) :
    s.removeObserver observer = some { s with observers := without observer s.observers } := by
  have hrounds : rounds observer s.observers ≤ intMax := by
    rw [rounds_of_apart h.apart]
    exact h.short
  rw [removeObserver_eq, if_pos hrounds, (leaves_eq_without_iff _).mpr h.apart]

theorem leaves_sublist : ∀ observers : List O, (leaves observer observers).Sublist observers
  | [] => .slnil
  | [a] => by
      rw [leaves]
      split
      · exact List.nil_sublist [a]
      · exact .refl [a]
  | a :: b :: rest => by
      rw [leaves]
      split
      · exact ((leaves_sublist rest).cons_cons b).cons a
      · exact (leaves_sublist (b :: rest)).cons_cons a

theorem observers_sublist {F : Type} {s s' : WeatherStation O F}
    (h : s.removeObserver observer = some s') : s'.observers.Sublist s.observers := by
  rw [removeObserver_eq] at h
  split at h
  · obtain rfl := Option.some.inj h
    exact leaves_sublist _
  · cases h

theorem removable_of_removeObserver {F : Type} {s s' : WeatherStation O F}
    (h : s.removeObserver observer = some s') (hs' : s'.observers = without observer s.observers) :
    Removable observer s.observers := by
  rw [removeObserver_eq] at h
  split at h
  · rename_i hrounds
    obtain rfl := Option.some.inj h
    have hapart := (leaves_eq_without_iff _).mp hs'
    rw [rounds_of_apart hapart] at hrounds
    exact ⟨hapart, hrounds⟩
  · cases h

end WeatherStation

/-! ## Calls on a station -/

inductive StationCall (O F : Type) where
  | addObserver (observer : O)
  | removeObserver (observer : O)
  | notifyObservers
  | setWeatherData (temp hum : F)

/-- A station, and the calls of `update` it has made. -/
structure Watched (O F : Type) where
  station : WeatherStation O F
  updates : List (ObserverUpdate O F) := []

namespace Watched

open WeatherStation

variable {O F : Type} [DecidableEq O]

def step (w : Watched O F) : StationCall O F → Option (Watched O F)
  | .addObserver observer => some { w with station := w.station.addObserver observer }
  | .removeObserver observer =>
      (w.station.removeObserver observer).map fun station => { w with station := station }
  | .notifyObservers => some { w with updates := w.updates ++ w.station.notifyObservers }
  | .setWeatherData temp hum =>
      let (station, updates) := w.station.setWeatherData temp hum
      some { station := station, updates := w.updates ++ updates }

/-- A new station; its numbers are whatever is there. -/
def start (temperature humidity : F) : Watched O F where
  station := { temperature := temperature, humidity := humidity }

/-- The observer is not registered, and no update has been for it. -/
structure Without (observer : O) (w : Watched O F) : Prop where
  observers : observer ∉ w.station.observers
  updates : ∀ u ∈ w.updates, u.observer ≠ observer

variable {observer : O} {w w' : Watched O F}

omit [DecidableEq O] in
theorem Without.notify (h : w.Without observer) (s : WeatherStation O F)
    (hs : s.observers = w.station.observers) :
    ∀ u ∈ w.updates ++ s.notifyObservers, u.observer ≠ observer := by
  intro u hu
  rcases List.mem_append.mp hu with hold | hnew
  · exact h.updates u hold
  · obtain ⟨p, hp, rfl⟩ := List.mem_map.mp hnew
    rintro rfl
    exact h.observers (hs ▸ hp)

theorem Without.step (h : w.Without observer) {call : StationCall O F}
    (hcall : call ≠ .addObserver observer) (hstep : w.step call = some w') :
    w'.Without observer := by
  cases call with
  | addObserver p =>
      obtain rfl := Option.some.inj hstep
      refine ⟨fun hin => ?_, h.updates⟩
      rcases List.mem_append.mp hin with hold | hnew
      · exact h.observers hold
      · exact hcall (congrArg _ (List.mem_singleton.mp hnew).symm)
  | removeObserver p =>
      obtain ⟨s, hs, rfl⟩ := Option.map_eq_some_iff.mp hstep
      refine ⟨fun hin => h.observers ?_, h.updates⟩
      exact (observers_sublist hs).subset hin
  | notifyObservers =>
      obtain rfl := Option.some.inj hstep
      exact ⟨h.observers, h.notify w.station rfl⟩
  | setWeatherData temp hum =>
      obtain rfl := Option.some.inj hstep
      exact ⟨h.observers, h.notify { w.station with temperature := temp, humidity := hum } rfl⟩

theorem Without.run :
    ∀ (calls : List (StationCall O F)) {w w' : Watched O F}, w.Without observer →
      .addObserver observer ∉ calls → run Watched.step w calls = some w' → w'.Without observer
  | [], _, _, h, _, hrun => Option.some.inj hrun ▸ h
  | call :: calls, _, _, h, hno, hrun => by
      obtain ⟨w₁, hstep, hrest⟩ := run_cons_eq_some.mp hrun
      have hcall : call ≠ .addObserver observer := fun heq => hno (heq ▸ List.mem_cons_self ..)
      have hcalls : .addObserver observer ∉ calls := fun hin => hno (List.mem_cons_of_mem _ hin)
      exact Without.run calls (h.step hcall hstep) hcalls hrest

/-- The registry without gaps: what a removal removes are all occurrences. -/
def registered (observers : List O) : List (StationCall O F) → List O
  | [] => observers
  | .addObserver observer :: calls => registered (observers ++ [observer]) calls
  | .removeObserver observer :: calls => registered (without observer observers) calls
  | .notifyObservers :: calls => registered observers calls
  | .setWeatherData _ _ :: calls => registered observers calls

/-- A removal comes where it removes all. -/
def Removes (w : Watched O F) (call : StationCall O F) : Prop :=
  ∀ observer, call = .removeObserver observer → Removable observer w.station.observers

theorem observers_run :
    ∀ (calls : List (StationCall O F)) {w w' : Watched O F},
      Along Watched.step Removes w calls → run Watched.step w calls = some w' →
        w'.station.observers = registered w.station.observers calls
  | [], _, _, _, hrun => Option.some.inj hrun ▸ rfl
  | call :: calls, w, w', hall, hrun => by
      obtain ⟨w₁, hstep, hrest⟩ := run_cons_eq_some.mp hrun
      have hend := observers_run calls (hall.2 w₁ hstep) hrest
      cases call with
      | addObserver p =>
          obtain rfl := Option.some.inj hstep
          exact hend
      | removeObserver p =>
          have hremoved := removeObserver_of_removable (hall.1 p rfl)
          rw [Watched.step, hremoved] at hstep
          obtain rfl := Option.some.inj hstep
          exact hend
      | notifyObservers =>
          obtain rfl := Option.some.inj hstep
          exact hend
      | setWeatherData temp hum =>
          obtain rfl := Option.some.inj hstep
          exact hend

end Watched

open WeatherStation Watched

/-- `removeObserver` is complete: all occurrences are gone and the others are as before, nothing
updates the observer until it is added again, and the others are updated as often as they are
registered. -/
def WeatherStation.Unsubscribes {O F : Type} [DecidableEq O] (s : WeatherStation O F)
    (observer : O) : Prop :=
  ∃ s', s.removeObserver observer = some s' ∧
    s'.observers = s.observers.filter (· ≠ observer) ∧
    (∀ calls w, .addObserver observer ∉ calls → run Watched.step { station := s' } calls = some w →
      ∀ u ∈ w.updates, u.observer ≠ observer) ∧
    ∀ temp hum p, p ≠ observer →
      (s'.setWeatherData temp hum).2.countP (·.observer = p) = s.observers.count p

theorem WeatherStation.unsubscribes_iff {O F : Type} [DecidableEq O] {s : WeatherStation O F}
    {observer : O} : s.Unsubscribes observer ↔ Removable observer s.observers := by
  constructor
  · rintro ⟨s', hremove, hobservers, -⟩
    exact removable_of_removeObserver hremove hobservers
  · intro h
    refine ⟨_, removeObserver_of_removable h, rfl, fun calls w hno hrun => ?_,
      fun temp hum p hp => ?_⟩
    · have hstart : Without observer
          { station := { s with observers := without observer s.observers } } :=
        ⟨fun hin => by simpa using (List.mem_filter.mp hin).2, fun u hu => by cases hu⟩
      exact (hstart.run calls hno hrun).updates
    · rw [WeatherStation.setWeatherData, notifyObservers, List.countP_map, List.count, without,
        List.countP_filter]
      refine List.countP_congr fun a _ => ?_
      by_cases ha : a = p
      · simp [ha, hp]
      · simp [ha]

/-- In every run, `removeObserver` is complete exactly where the occurrences are apart and the
index does not run over; and where all removals so far were, a change of the data updates
every observer as often as it is registered. -/
theorem unsubscribed_iff {O F : Type} [DecidableEq O] {temperature humidity : F}
    {calls : List (StationCall O F)} {w : Watched O F}
    (h : run Watched.step (start temperature humidity) calls = some w) :
    (∀ observer, w.station.Unsubscribes observer ↔ Removable observer w.station.observers) ∧
    (Along Watched.step Removes (start temperature humidity) calls → ∀ temp hum,
      (w.station.setWeatherData temp hum).2.map (·.observer) = registered [] calls) := by
  refine ⟨fun _ => unsubscribes_iff, fun hall temp hum => ?_⟩
  have hobservers : w.station.observers = registered [] calls := observers_run calls hall h
  rw [← hobservers, WeatherStation.setWeatherData, notifyObservers, List.map_map]
  exact List.map_id _

/-- Added between two registrations of another observer and removed again. -/
theorem unsubscribed_between :
    ∃ w : Watched Nat Nat, run Watched.step (start 0 0)
        [.addObserver 1, .addObserver 2, .addObserver 1, .removeObserver 2] = some w ∧
      (w.station.setWeatherData 30 60).2.map (·.observer) = [1, 1] := by
  have hremove : (⟨[1, 2, 1], 0, 0⟩ : WeatherStation Nat Nat).removeObserver 2 =
      some ⟨[1, 1], 0, 0⟩ := by
    simp [removeObserver_eq, rounds, leaves, intMax]
  have hrun : run Watched.step (start 0 0)
      [.addObserver 1, .addObserver 2, .addObserver 1, .removeObserver 2] =
        some (⟨⟨[1, 1], 0, 0⟩, []⟩ : Watched Nat Nat) := by
    simp [run, Watched.step, start, addObserver, hremove]
  have hremovable : Removable 2 [1, 2, 1] := ⟨by simp [Apart], by simp [without, intMax]⟩
  have hall : Along Watched.step Removes (start 0 0 : Watched Nat Nat)
      [.addObserver 1, .addObserver 2, .addObserver 1, .removeObserver 2] := by
    simp [Along, Removes, Watched.step, start, addObserver, hremovable]
  exact ⟨_, hrun, (unsubscribed_iff hrun).2 hall 30 60⟩

/-- Added twice in a row and removed, an observer is still there, and is updated. -/
theorem not_unsubscribed_twice :
    ∃ w w' : Watched Nat Nat,
      run Watched.step (start 0 0) [.addObserver 1, .addObserver 1] = some w ∧
      run Watched.step w [.removeObserver 1, .setWeatherData 30 60] = some w' ∧
      w'.updates.map (·.observer) = [1] ∧ ¬ w.station.Unsubscribes 1 := by
  have hremove : (⟨[1, 1], 0, 0⟩ : WeatherStation Nat Nat).removeObserver 1 =
      some ⟨[1], 0, 0⟩ := by
    simp [removeObserver_eq, rounds, leaves, intMax]
  have hrun : run Watched.step (⟨⟨[1, 1], 0, 0⟩, []⟩ : Watched Nat Nat)
      [.removeObserver 1, .setWeatherData 30 60] = some ⟨⟨[1], 30, 60⟩, [⟨1, 30, 60⟩]⟩ := by
    simp [run, Watched.step, hremove, WeatherStation.setWeatherData, notifyObservers]
  refine ⟨⟨⟨[1, 1], 0, 0⟩, []⟩, _, rfl, hrun, rfl, fun h => ?_⟩
  have hapart : Apart 1 [1, 1] := (unsubscribes_iff.mp h).apart
  simp [Apart] at hapart

end CppDemos
