import Redoubt.Services.SupervisorSafety

/-!
# Stops and restarts over whole runs

Two questions about the history of one service: whether it comes up again after it was
stopped, and how long the supervisor waits between the exits of a crash loop.
-/

namespace Redoubt.Services

open Redoubt.Foundation Redoubt.Storage

variable {w : Surroundings} {nextTid index : Nat} {s s' : Supd}

/-! ### After a stop -/

/-- Neither the loop nor the end of its child brings this service up. -/
def StaysDown (s : Supd) (index : Nat) : Prop :=
  ∃ svc, s.services[index]? = some svc ∧ svc.restart = false ∧ ¬ svc.state.IsWaiting

/-- A service after the loop has reaped a child. -/
theorem accountExit_service {tid : Nat} (code : UInt64) {svc : Service}
    (found : s.services[index]? = some svc) :
    ∃ svc', (accountExit w tid code s).2.services[index]? = some svc' ∧ svc'.restart = svc.restart ∧
      (svc'.state.IsWaiting → svc.state.IsWaiting ∨ svc.restart = true) := by
  obtain ⟨marked, hmarked, hrestart, hstate⟩ :
      ∃ marked, (s.markExited tid).services[index]? = some marked ∧
      marked.restart = svc.restart ∧ (marked.state = svc.state ∨ marked.state = .stopped) := by
    change ∃ marked, (markExited tid s.services)[index]? = some marked ∧ _
    rw [markExited_getElem?, found, Option.map_some]
    refine ⟨_, rfl, ?_⟩
    split_ifs
    · exact ⟨rfl, .inr rfl⟩
    · exact ⟨rfl, .inl rfl⟩
  have hkept : marked.state.IsWaiting → svc.state.IsWaiting ∨ svc.restart = true := by
    rintro ⟨resume, hwaiting⟩
    rcases hstate with hsame | hstopped
    · exact .inl ⟨resume, hsame ▸ hwaiting⟩
    · cases hstopped.symm.trans hwaiting
  obtain ⟨other, svc', last, hfound', hrun, hresult, hlast⟩ | ⟨hnone, hresult⟩ :=
    @accountExit_cases w tid code s
  · rw [hresult]
    by_cases heq : index = other
    · subst heq
      cases found.symm.trans hfound'
      obtain ⟨hwanted, -, rfl⟩ | ⟨-, rfl⟩ := hlast
      · exact ⟨_, @Supd.modify_self (enter w ((s.markExited tid).note (.exited index))).2 index _
          hmarked _, hrestart, fun _ => .inr hwanted⟩
      · refine ⟨_, @Supd.modify_self ((s.markExited tid).note (.exited index)) index _ hmarked _,
          hrestart, ?_⟩
        rintro ⟨resume, ⟨⟩⟩
    · refine ⟨marked, ?_, hrestart, hkept⟩
      rw [← hmarked]
      obtain ⟨-, -, rfl⟩ | ⟨-, rfl⟩ := hlast
      · exact Supd.modify_other heq _
      · exact Supd.modify_other heq _
  · rw [hresult]
    exact ⟨svc, found, rfl, .inl⟩

namespace StaysDown

/-- The service that changes is another one, or the change keeps it down. -/
theorem modify {other : Nat} {f : Service → Service} (h : StaysDown s index)
    (hf : other = index → ∀ svc, s.services[index]? = some svc → svc.restart = false →
      ¬ svc.state.IsWaiting →
      (f svc).restart = false ∧ ¬ (f svc).state.IsWaiting) : StaysDown (s.modify other f) index := by
  obtain ⟨svc, hfound, hrestart, hstate⟩ := h
  by_cases heq : other = index
  · subst heq
    exact ⟨f svc, Supd.modify_self hfound f, hf rfl svc hfound hrestart hstate⟩
  · exact ⟨svc, by rw [Supd.modify_other (Ne.symm heq), hfound], hrestart, hstate⟩

/-- A child of another service comes up. -/
theorem raise {other tid : Nat} (elf : List UInt8) (due : Option Nat) (h : StaysDown s index)
    (ne : other ≠ index) :
    StaysDown (s.raise other tid elf due) index := by
  obtain ⟨svc, hfound, hrestart, hstate⟩ := h
  refine ⟨svc, ?_, hrestart, hstate⟩
  rw [← hfound]
  exact Supd.modify_other ne.symm _

theorem note (h : StaysDown s index) (event : Event) : StaysDown (s.note event) index := h

/-- Once something was stopped, the loop neither spawns this service nor lets it wait. -/
theorem loopMove (h : StaysDown s index) (asked : ¬ s.Unstopped) (step : LoopMove w s s') :
    StaysDown s' index ∧ ∃ new, s'.trace = s.trace ++ new ∧
      ∀ tid elf due, Event.spawned index tid elf due ∉ new := by
  cases step with
  | enter => exact ⟨h, _, rfl, by simp⟩
  | note plain =>
      refine ⟨h, _, rfl, fun tid elf due hmem => ?_⟩
      rw [← List.mem_singleton.mp hmem] at plain
      exact plain
  | @raise other tid svc elf due found timely fresh =>
      have hne : other ≠ index := by
        rintro rfl
        obtain ⟨svc', hfound, -, hstate⟩ := h
        cases found.symm.trans hfound
        cases due with
        | none => exact asked timely.2
        | some =>
            obtain ⟨resume, hwaiting, -⟩ := timely
            exact hstate ⟨resume, hwaiting⟩
      refine ⟨h.raise elf due hne, _, rfl, fun tid' elf' due' hmem => ?_⟩
      cases List.mem_singleton.mp hmem
      exact hne rfl
  | @fail other svc found down =>
      have hfailed : StaysDown (s.modify other fun svc => { svc with state := .failed }) index :=
        h.modify fun _ svc _ hrestart _ => ⟨hrestart, fun ⟨_, hwaiting⟩ => SvcState.noConfusion hwaiting⟩
      exact ⟨hfailed.note _, _, rfl, by simp⟩
  | count =>
      exact ⟨h.modify fun _ svc _ hrestart hstate => ⟨hrestart, hstate⟩, [],
        (List.append_nil _).symm, by simp⟩
  | account _ code =>
      obtain ⟨svc, hfound, hrestart, hstate⟩ := h
      obtain ⟨svc', hfound', hsame, hwaiting⟩ :=
        @accountExit_service w index s.reapFirst _ code svc hfound
      obtain ⟨body, htrace, hbody⟩ := @accountExit_trace w _ code s.reapFirst
      refine ⟨⟨svc', hfound', hsame.trans hrestart, fun hwait => ?_⟩, _, htrace,
        fun tid elf due hmem => ?_⟩
      · rcases hwaiting hwait with hwait' | hwanted
        · exact hstate hwait'
        · cases hrestart.symm.trans hwanted
      · rcases List.mem_append.mp hmem with hold | hlast
        · exact hbody _ hold
        · cases List.mem_singleton.mp hlast

/-- An operator only brings it up after asking for it. -/
theorem move (h : StaysDown s index) (asked : ¬ s.Unstopped) (step : Move w s s') :
    ∃ new, s'.trace = s.trace ++ new ∧ (∀ tid elf due, Event.spawned index tid elf due ∉ new) ∧
      (Event.wanted index ∉ new → StaysDown s' index) := by
  cases step with
  | loop step =>
      obtain ⟨hdown, new, htrace, hspawned⟩ := h.loopMove asked step
      exact ⟨new, htrace, hspawned, fun _ => hdown⟩
  | drain =>
      refine ⟨_, rfl, by simp, fun _ => ?_⟩
      obtain ⟨svc, hfound, hrestart, hstate⟩ := h
      refine ⟨_, (release_getElem? _ s.services index).trans (congrArg _ hfound), ?_⟩
      dsimp only
      split_ifs
      · exact ⟨hrestart, fun ⟨_, hwaiting⟩ => SvcState.noConfusion hwaiting⟩
      · exact ⟨hrestart, hstate⟩
  | want =>
      refine ⟨_, rfl, by simp, fun hother => StaysDown.note (h.modify fun heq => ?_) _⟩
      rw [heq] at hother
      exact absurd List.mem_cons_self hother
  | @raise other tid svc elf found down wanted fresh =>
      have hne : other ≠ index := by
        rintro rfl
        obtain ⟨svc', hfound, hrestart, -⟩ := h
        cases found.symm.trans hfound
        cases hrestart.symm.trans wanted
      refine ⟨_, rfl, fun tid' elf' due' hmem => ?_, fun _ => h.raise elf none hne⟩
      cases List.mem_singleton.mp hmem
      exact hne rfl
  | unwant =>
      exact ⟨[], (List.append_nil _).symm, by simp, fun _ => h.modify fun _ svc _ _ hstate =>
        ⟨rfl, hstate⟩⟩
  | kill => exact ⟨[], (List.append_nil _).symm, by simp, fun _ => h⟩
  | @rest other tid svc now found running wanted killed =>
      refine ⟨[], (List.append_nil _).symm, by simp, fun _ => h.modify fun heq svc' hsvc' hrestart => ?_⟩
      subst heq
      cases found.symm.trans hsvc'
      cases hrestart.symm.trans wanted
  | stopped => exact ⟨_, rfl, by simp, fun _ => h⟩

end StaysDown

/-- An event of a longer history is an old one or a new one. -/
theorem split_append {old new front tail : List Event} {event : Event}
    (h : old ++ new = front ++ event :: tail) :
    (∃ more, old = front ++ event :: more ∧ tail = more ++ new) ∨
      ∃ init, front = old ++ init ∧ new = init ++ event :: tail := by
  rcases List.append_eq_append_iff.mp h with ⟨init, hfront, hnew⟩ | ⟨more, hold, hnew⟩
  · exact .inr ⟨init, hfront, hnew⟩
  · cases more with
    | nil => exact .inr ⟨[], by rw [hold, List.append_nil, List.append_nil], hnew.symm⟩
    | cons _ more =>
        rw [List.cons_append, List.cons.injEq] at hnew
        exact .inl ⟨more, hnew.1 ▸ hold, hnew.2⟩

/-- Nothing comes up in this part of a trace before an operator asks for it. -/
def NotRaised (index : Nat) (tail : List Event) : Prop :=
  ∀ mid rest, tail = mid ++ rest → Event.wanted index ∉ mid →
    ∀ tid elf due, Event.spawned index tid elf due ∉ mid

/-- The stops of a trace, except those of services that were waiting. -/
def StopsHold (s : Supd) : Prop :=
  ∀ front index before tail, s.trace = front ++ .stopped index before :: tail → ¬ before.IsWaiting →
    NotRaised index tail ∧ (Event.wanted index ∉ tail → StaysDown s index)

theorem NotRaised.append {tail new : List Event} (h : NotRaised index tail)
    (hnew : Event.wanted index ∉ tail → ∀ tid elf due, Event.spawned index tid elf due ∉ new) :
    NotRaised index (tail ++ new) := by
  intro mid rest heq hwanted tid elf due hmem
  rcases List.append_eq_append_iff.mp heq with ⟨more, hmid, hmore⟩ | ⟨more, htail, hmore⟩
  · -- the part ends among the new events
    rw [hmid] at hwanted hmem
    have hquiet : Event.wanted index ∉ tail := fun hold => hwanted (List.mem_append_left _ hold)
    rcases List.mem_append.mp hmem with hold | hadded
    · exact h tail [] (List.append_nil _).symm hquiet tid elf due hold
    · refine hnew hquiet tid elf due ?_
      rw [hmore]
      exact List.mem_append_left _ hadded
  · exact h mid more htail hwanted tid elf due hmem

/-- A stop is an event of its own, and leaves the service down. -/
theorem Move.stops (step : Move w s s') : ∃ new, s'.trace = s.trace ++ new ∧
    ∀ index before, Event.stopped index before ∈ new →
      new = [.stopped index before] ∧ (¬ before.IsWaiting → StaysDown s' index) := by
  cases step with
  | loop step =>
      obtain ⟨new, htrace, hnew⟩ := step.trace
      exact ⟨new, htrace, fun index before hmem => (hnew _ hmem).elim⟩
  | drain => exact ⟨_, rfl, by simp⟩
  | want => exact ⟨_, rfl, by simp⟩
  | raise => exact ⟨_, rfl, by simp⟩
  | unwant => exact ⟨[], (List.append_nil _).symm, by simp⟩
  | kill => exact ⟨[], (List.append_nil _).symm, by simp⟩
  | rest => exact ⟨[], (List.append_nil _).symm, by simp⟩
  | stopped found unwanted kept =>
      refine ⟨_, rfl, fun index before hmem => ?_⟩
      cases List.mem_singleton.mp hmem
      exact ⟨rfl, fun hbefore => ⟨_, found, unwanted, kept hbefore⟩⟩

theorem StopsHold.move (h : StopsHold s) (step : Move w s s') : StopsHold s' := by
  intro front index before tail heq hbefore
  obtain ⟨new, htrace, hstops⟩ := step.stops
  -- a stop of this very move is the end of the trace
  have hlast : ∀ init, new = init ++ .stopped index before :: tail →
      NotRaised index tail ∧ (Event.wanted index ∉ tail → StaysDown s' index) := by
    intro init hnew
    obtain ⟨hsingle, hdown⟩ := hstops index before (hnew ▸ List.mem_append_right _ List.mem_cons_self)
    have hlength := congrArg List.length (hnew.symm.trans hsingle)
    simp only [List.length_append, List.length_cons, List.length_nil] at hlength
    have htail : tail = [] := List.eq_nil_of_length_eq_zero (by omega)
    subst htail
    refine ⟨fun mid rest hsplit _ tid elf due hmem => ?_, fun _ => hdown hbefore⟩
    rw [(List.append_eq_nil_iff.mp hsplit.symm).1] at hmem
    cases hmem
  rw [htrace] at heq
  obtain ⟨more, hold, rfl⟩ | ⟨init, -, hnew⟩ := split_append heq
  · obtain ⟨hraised, hdown⟩ := h front index before more hold hbefore
    have hasked : ¬ s.Unstopped := fun hquiet =>
      hquiet index before (hold ▸ List.mem_append_right _ List.mem_cons_self)
    -- while nobody asks for it the service is down, so the move does not raise it
    have hmove : Event.wanted index ∉ more → (∀ tid elf due, Event.spawned index tid elf due ∉ new) ∧
        (Event.wanted index ∉ new → StaysDown s' index) := by
      intro hquiet
      obtain ⟨new', htrace', hspawned, hkept⟩ := (hdown hquiet).move hasked step
      cases List.append_cancel_left (htrace.symm.trans htrace')
      exact ⟨hspawned, hkept⟩
    refine ⟨hraised.append fun hquiet => (hmove hquiet).1, fun hwanted => ?_⟩
    rw [List.mem_append, not_or] at hwanted
    exact (hmove hwanted.1).2 hwanted.2
  · exact hlast init hnew

/-- In every run, a service that was not backing off when it was stopped gets no child
until an operator asks for it. -/
theorem stop_holds (reached : Reaches w nextTid s) {front mid rest : List Event} {before : SvcState}
    (stopped : s.trace = front ++ .stopped index before :: (mid ++ rest)) (settled : ¬ before.IsWaiting)
    (unasked : Event.wanted index ∉ mid) (tid : Nat) (elf : List UInt8) (due : Option Nat) :
    Event.spawned index tid elf due ∉ mid := by
  obtain ⟨loaded, hloaded, hmoves⟩ := reached.moves
  have hstops : StopsHold s := by
    clear stopped reached
    induction hmoves with
    | refl =>
        intro front index before tail heq
        refine absurd ?_ (hloaded.unstopped index before)
        rw [heq]
        exact List.mem_append_right _ List.mem_cons_self
    | tail _ step ih => exact ih.move step
  exact (hstops front index before _ stopped settled).1 mid rest rfl unasked tid elf due

theorem stop_holds_running : ∃ s front tail, Reaches crashDuringStop 1 s ∧
    s.trace = front ++ .stopped 1 (.running 2) :: tail ∧
      ∀ tid elf due, Event.spawned 1 tid elf due ∉ tail := by
  obtain ⟨s, hreached, hmem⟩ := @Reaches.of_rounds crashDuringStop 1 2
    (fun s => .stopped 1 (.running 2) ∈ s.trace ∧ .wanted 1 ∉ s.trace) (by decide +kernel)
  obtain ⟨hstopped, hquiet⟩ := of_decide_eq_true hmem
  obtain ⟨front, tail, htrace⟩ := List.append_of_mem hstopped
  refine ⟨s, front, tail, hreached, htrace,
    stop_holds hreached ((List.append_nil tail).symm ▸ htrace) ?_ ?_⟩
  · rintro ⟨resume, ⟨⟩⟩
  · intro hwanted
    rw [htrace] at hquiet
    exact hquiet (List.mem_append_right _ (List.mem_cons_of_mem _ hwanted))

/-- The one service of the roster ends, and an operator asks to stop it while it waits. -/
def stopDuringBackoff : Surroundings :=
  steady [ascii "a autostart restart"] (fun _ => [(1, 7)]) fun _ => .ok (Msg.pack (ascii "stop a"))

theorem split_at_event {history : List Event} {k : Nat} {event : Event} (h : history[k]? = some event) :
    history = history.take k ++ event :: history.drop (k + 1) := by
  obtain ⟨hlt, rfl⟩ := List.getElem?_eq_some_iff.mp h
  rw [← List.drop_eq_getElem_cons hlt, List.take_append_drop]

/-- The stop is answered with ok and the service comes up again. -/
theorem stopped_service_respawned : ∃ s front tail, Reaches stopDuringBackoff 1 s ∧
    s.trace = front ++ .stopped 0 (.waiting 120) :: tail ∧
    Event.answered (ascii "stop a") (ascii "ok already-down") ∈ tail ∧ Event.wanted 0 ∉ tail ∧
    Event.spawned 0 2 [] (some 150) ∈ tail := by
  obtain ⟨s, hreached, hmem⟩ := @Reaches.of_rounds stopDuringBackoff 1 2
    (fun s => s.trace[18]? = some (.stopped 0 (.waiting 120)) ∧
      .answered (ascii "stop a") (ascii "ok already-down") ∈ s.trace.drop 19 ∧
      .wanted 0 ∉ s.trace.drop 19 ∧ .spawned 0 2 [] (some 150) ∈ s.trace.drop 19) (by decide +kernel)
  obtain ⟨hstopped, hrest⟩ := of_decide_eq_true hmem
  exact ⟨s, _, _, hreached, split_at_event hstopped, hrest⟩

/-! ### Crash loops -/

/-- The events in the life of one service. -/
def Event.about (index : Nat) : Event → Bool
  | .spawned i _ _ _ | .exited i | .backoff i _ _ | .gaveUp i => i == index
  | _ => false

def life (index : Nat) (history : List Event) : List Event := history.filter (Event.about index)

theorem life_append (index : Nat) (front tail : List Event) :
    life index (front ++ tail) = life index front ++ life index tail :=
  List.filter_append ..

/-- After its k-th exit the service waits as long as the policy says before it is spawned
again, and after the sixth it is given up. -/
def BacksOff (index : Nat) (life : List Event) : Prop :=
  ∀ front tail, life = front ++ .exited index :: tail →
    let exits := front.count (.exited index) + 1
    let delay := min (20 * 2 ^ min exits 7) 1600
    (exits ≤ 5 → ∃ now rest, tail = .backoff index now delay :: rest ∧
      ∀ next ∈ rest.head?, ∃ tid elf clock, next = .spawned index tid elf (some clock) ∧
        now + delay ≤ clock) ∧
    (exits = 6 → ∃ rest, tail = .gaveUp index :: rest ∧
      ∀ tid elf due, Event.spawned index tid elf due ∉ rest)

/-- The life of a service that nobody stops and whose spawns all succeed, with its state
and its count of failures.  A spawn clears the count, so each exit is the first one. -/
inductive Lived (index : Nat) : SvcState → Nat → List Event → Prop where
  | idle : Lived index .stopped 0 []
  | first (tid : Nat) (elf : List UInt8) : Lived index (.running tid) 0 [.spawned index tid elf none]
  | again {resume now : Nat} {life : List Event} (waited : Lived index (.waiting resume) 1 life)
      (due : resume ≤ now) (tid : Nat) (elf : List UInt8) :
      Lived index (.running tid) 0 (life ++ [.spawned index tid elf (some now)])
  | exit {tid : Nat} {life : List Event} (ran : Lived index (.running tid) 0 life) (now : Nat) :
      Lived index (.waiting (now + 40)) 1 (life ++ [.exited index, .backoff index now 40])

/-- The occurrence of an event after a given number of earlier ones. -/
theorem split_at_count {event : Event} {history : List Event} {n : Nat} (h : n < history.count event) :
    ∃ front tail, history = front ++ event :: tail ∧ front.count event = n := by
  induction history generalizing n with
  | nil => cases h
  | cons first rest ih =>
      by_cases heq : first = event
      · subst heq
        cases n with
        | zero => exact ⟨[], rest, rfl, rfl⟩
        | succ =>
            rw [List.count_cons_self] at h
            obtain ⟨front, tail, rfl, hcount⟩ := ih (Nat.lt_of_succ_lt_succ h)
            exact ⟨first :: front, tail, rfl, by rw [List.count_cons_self, hcount]⟩
      · rw [List.count_cons_of_ne heq] at h
        obtain ⟨front, tail, rfl, hcount⟩ := ih h
        exact ⟨first :: front, tail, rfl, by rw [List.count_cons_of_ne heq, hcount]⟩

namespace Lived

theorem stopped_nil {failures : Nat} {life : List Event}
    (h : Lived index .stopped failures life) : life = [] := by
  cases h
  rfl

theorem waiting_failures {resume failures : Nat} {life : List Event}
    (h : Lived index (.waiting resume) failures life) : failures = 1 := by
  cases h
  rfl

theorem running_failures {tid failures : Nat} {life : List Event}
    (h : Lived index (.running tid) failures life) : failures = 0 := by
  cases h <;> rfl

/-- Every exit is followed by a delay of 40 ticks. -/
theorem exit_cases {state : SvcState} {failures : Nat} {life front tail : List Event}
    (h : Lived index state failures life) (split : life = front ++ .exited index :: tail) :
    ∃ now rest, tail = .backoff index now 40 :: rest ∧
      (rest = [] ∧ state = .waiting (now + 40) ∨
        ∃ tid elf clock later, rest = .spawned index tid elf (some clock) :: later ∧
          now + 40 ≤ clock) := by
  induction h generalizing tail with
  | idle => simp at split
  | first tid elf =>
      have hmem : Event.exited index ∈ [Event.spawned index tid elf none] := by
        rw [split]
        exact List.mem_append_right _ List.mem_cons_self
      simp at hmem
  | @again resume clock life _ due tid elf ih =>
      obtain ⟨more, hold, rfl⟩ | ⟨init, -, hnew⟩ := split_append split
      · obtain ⟨now, rest, rfl, ⟨rfl, hwaiting⟩ | ⟨tid', elf', clock', later, rfl, hdelay⟩⟩ := ih hold
        · cases hwaiting
          exact ⟨now, _, rfl, .inr ⟨tid, elf, clock, [], rfl, due⟩⟩
        · exact ⟨now, _, rfl, .inr ⟨tid', elf', clock', _, rfl, hdelay⟩⟩
      · have hmem : Event.exited index ∈ [Event.spawned index tid elf (some clock)] := by
          rw [hnew]
          exact List.mem_append_right _ List.mem_cons_self
        simp at hmem
  | @exit tid life _ clock ih =>
      obtain ⟨more, hold, rfl⟩ | ⟨init, -, hnew⟩ := split_append split
      · obtain ⟨now, rest, rfl, ⟨-, hwaiting⟩ | ⟨tid', elf', clock', later, rfl, hdelay⟩⟩ := ih hold
        · cases hwaiting
        · exact ⟨now, _, rfl, .inr ⟨tid', elf', clock', _, rfl, hdelay⟩⟩
      · obtain ⟨rfl, rfl⟩ : init = [] ∧ tail = [.backoff index clock 40] := by
          cases init with
          | nil => exact ⟨rfl, (List.cons.inj hnew).2.symm⟩
          | cons =>
              have hmem : Event.exited index ∈ [Event.backoff index clock 40] := by
                rw [(List.cons.inj hnew).2]
                exact List.mem_append_right _ List.mem_cons_self
              simp at hmem
        exact ⟨clock, [], rfl, .inl ⟨rfl, rfl⟩⟩

/-- So the policy is kept up to the first exit. -/
theorem backsOff_iff {state : SvcState} {failures : Nat} {life : List Event}
    (h : Lived index state failures life) :
    BacksOff index life ↔ life.count (.exited index) ≤ 1 := by
  constructor
  · intro hpolicy
    by_contra hmany
    obtain ⟨front, tail, hsplit, hcount⟩ := split_at_count (Nat.lt_of_not_le hmany)
    obtain ⟨now, rest, htail, -⟩ := h.exit_cases hsplit
    obtain ⟨now', rest', htail', -⟩ := (hpolicy front tail hsplit).1 (by rw [hcount]; decide)
    rw [htail, hcount] at htail'
    cases htail'
  · intro honce front tail hsplit
    have hfront : front.count (.exited index) = 0 := by
      rw [hsplit, List.count_append, List.count_cons_self] at honce
      omega
    obtain ⟨now, rest, rfl, hnext⟩ := h.exit_cases hsplit
    dsimp only
    rw [hfront]
    refine ⟨fun _ => ⟨now, rest, rfl, fun next hmem => ?_⟩, fun hsix => absurd hsix (by decide)⟩
    obtain ⟨rfl, -⟩ | ⟨tid, elf, clock, later, rfl, hdelay⟩ := hnext
    · cases hmem
    · cases hmem
      exact ⟨tid, elf, clock, rfl, hdelay⟩

end Lived

/-- The invariant of the loop without operators. -/
def Looped (s : Supd) : Prop :=
  ∀ (index : Nat) (svc : Service), s.services[index]? = some svc → svc.restart = true →
    Event.refused index ∉ s.trace → Lived index svc.state svc.failures (life index s.trace)

namespace Looped

/-- Nothing happens to this service. -/
theorem unaffected {new : List Event} {svc : Service} (h : Looped s)
    (found : s.services[index]? = some svc)
    (restart : svc.restart = true) (trace : s'.trace = s.trace ++ new)
    (elsewhere : ∀ event ∈ new, event.about index = false) (served : Event.refused index ∉ s'.trace) :
    Lived index svc.state svc.failures (life index s'.trace) := by
  rw [trace] at served ⊢
  have hnone : life index new = [] :=
    List.filter_eq_nil_iff.mpr fun event hmem => by simp [elsewhere event hmem]
  rw [life_append, hnone, List.append_nil]
  exact h index svc found restart fun hmem => served (List.mem_append_left _ hmem)

theorem raise {other tid : Nat} {svc : Service} (elf : List UInt8) {due : Option Nat} (h : Looped s)
    (found : s.services[other]? = some svc) (timely : Timely s due svc.state) :
    Looped (s.raise other tid elf due) := by
  intro index svc' hfound hrestart hserved
  obtain ⟨rfl, old, hold, rfl⟩ | ⟨hne, hold⟩ :=
    @Supd.modify_cases { s with children := _, nextTid := tid + 1 } other index svc' _ hfound
  · cases found.symm.trans hold
    have hlife : life index (s.raise index tid elf due).trace =
        life index s.trace ++ [.spawned index tid elf due] := by
      change life index (s.trace ++ _) = _
      rw [life_append]
      congr 1
      exact List.filter_cons_of_pos (beq_self_eq_true index)
    have hlived := h index svc found hrestart fun hmem => hserved (List.mem_append_left _ hmem)
    rw [hlife]
    cases due with
    | none =>
        rw [timely.1] at hlived
        rw [hlived.stopped_nil]
        exact .first tid elf
    | some =>
        obtain ⟨resume, hwaiting, hdue⟩ := timely
        rw [hwaiting] at hlived
        rw [hlived.waiting_failures] at hlived
        exact .again hlived hdue tid elf
  · refine h.unaffected hold hrestart rfl (fun event hmem => ?_) hserved
    rw [List.mem_singleton.mp hmem]
    exact beq_eq_false_iff_ne.mpr hne.symm

/-- The exit of this service: it waits, since its count of failures was zero. -/
theorem account_self {tid : Nat} {svc svc' : Service} {last : Supd} (h : Looped s)
    (found : s.services[index]? = some svc) (running : svc.state = .running tid)
    (settled : svc.restart = true ∧ svc.failures + 1 ≤ 5 ∧
          last = (enter w ((s.markExited tid).note (.exited index))).2.backOff index
            (enter w ((s.markExited tid).note (.exited index))).1.tick (backoffTicks (svc.failures + 1)) ∨
        ¬ (svc.restart = true ∧ svc.failures + 1 ≤ 5) ∧
          last = ((s.markExited tid).note (.exited index)).giveUp index)
    (found' : last.services[index]? = some svc') (restart : svc'.restart = true)
    (served : Event.refused index ∉ last.trace) :
    Lived index svc'.state svc'.failures (life index last.trace) := by
  have hmarked := Supd.markExited_self found running
  obtain ⟨hrestart, -, rfl⟩ | ⟨hmany, rfl⟩ := settled
  · cases (@Supd.modify_self (enter w ((s.markExited tid).note (.exited index))).2 index _ hmarked
      _).symm.trans found'
    rw [Supd.backOff_trace] at served ⊢
    have hlived := h index svc found hrestart fun hmem => served (List.mem_append_left _ hmem)
    rw [running] at hlived
    have hzero := hlived.running_failures
    rw [hzero] at hlived
    have hexit := hlived.exit (enter w ((s.markExited tid).note (.exited index))).1.tick
    have hnew : ∀ services children now delay, life index [.exited index, .call services children,
        .backoff index now delay] = [.exited index, .backoff index now delay] := by
      intro services children now delay
      simp [life, Event.about]
    rw [life_append, hnew, hzero]
    change Lived index (.waiting (_ + backoffTicks (svc.failures + 1))) (svc.failures + 1) _
    rw [hzero]
    exact hexit
  · cases (@Supd.modify_self ((s.markExited tid).note (.exited index)) index _ hmarked _).symm.trans
      found'
    rw [Supd.giveUp_trace] at served
    have hlived := h index svc found restart fun hmem => served (List.mem_append_left _ hmem)
    rw [running] at hlived
    exact absurd ⟨restart, by rw [hlived.running_failures]; decide⟩ hmany

theorem account {tid : Nat} (code : UInt64) (h : Looped s) (paired : Paired s) :
    Looped (accountExit w tid code s).2 := by
  obtain ⟨other, svc, last, hfound, hstate, hresult, hlast⟩ | ⟨hnone, hresult⟩ :=
    @accountExit_cases w tid code s
  · rw [hresult]
    intro index svc' hfound' hrestart hserved
    have hlife : life index (last.note (.reaped tid true s.services last.services)).trace =
        life index last.trace := by
      change life index (last.trace ++ _) = _
      rw [life_append]
      exact List.append_nil _
    rw [hlife]
    have hserved' : Event.refused index ∉ last.trace := fun hmem => hserved (List.mem_append_left _ hmem)
    by_cases heq : index = other
    · subst heq
      exact h.account_self hfound hstate hlast hfound' hrestart hserved'
    · -- the child belongs to one service only
      have hmarked : (s.markExited tid).services[index]? = some svc' := by
        rw [← hfound']
        obtain ⟨-, -, rfl⟩ | ⟨-, rfl⟩ := hlast
        · exact (Supd.modify_other heq _).symm
        · exact (Supd.modify_other heq _).symm
      have hkept : s.services[index]? = some svc' := by
        cases hold : s.services[index]? with
        | none =>
            change (markExited tid s.services)[index]? = _ at hmarked
            rw [markExited_getElem?, hold] at hmarked
            cases hmarked
        | some old =>
            have hne : old.state ≠ .running tid := fun hrun =>
              heq (paired.single index other old svc tid hold hfound hrun hstate)
            exact (Supd.markExited_other hold hne).symm.trans hmarked
      obtain ⟨new, htrace, hnew⟩ : ∃ new, last.trace = s.trace ++ new ∧
        ∀ event ∈ new, event.about index = false := by
        have hother : (other == index) = false := beq_eq_false_iff_ne.mpr (Ne.symm heq)
        obtain ⟨-, -, rfl⟩ | ⟨-, rfl⟩ := hlast
        · exact ⟨_, Supd.backOff_trace _ other _ _, by simp [Event.about, hother]⟩
        · exact ⟨_, Supd.giveUp_trace _ other, by simp [Event.about, hother]⟩
      exact h.unaffected hkept hrestart htrace hnew hserved'
  · rw [hresult]
    intro index svc hfound hrestart hserved
    refine h.unaffected hfound hrestart rfl (fun event hmem => ?_) hserved
    rw [List.mem_singleton.mp hmem]
    rfl

theorem loopMove (h : Looped s) (paired : Paired s) (step : LoopMove w s s') : Looped s' := by
  cases step with
  | enter =>
      intro index svc hfound hrestart hserved
      refine h.unaffected hfound hrestart rfl (fun event hmem => ?_) hserved
      rw [List.mem_singleton.mp hmem]
      rfl
  | @note event plain =>
      intro index svc hfound hrestart hserved
      refine h.unaffected hfound hrestart rfl (fun event' hmem => ?_) hserved
      rw [List.mem_singleton.mp hmem]
      cases event <;> first | rfl | exact plain.elim
  | raise elf found timely => exact h.raise elf found timely
  | @fail other svc found down =>
      intro index svc' hfound hrestart hserved
      obtain ⟨rfl, -⟩ | ⟨hne, hold⟩ := Supd.modify_cases hfound
      · exact absurd (List.mem_append_right _ List.mem_cons_self) hserved
      · refine h.unaffected hold hrestart rfl (fun event hmem => ?_) hserved
        rw [List.mem_singleton.mp hmem]
        rfl
  | count =>
      intro index svc' hfound hrestart hserved
      obtain ⟨rfl, old, hold, rfl⟩ | ⟨-, hold⟩ := Supd.modify_cases hfound
      · exact h index old hold hrestart hserved
      · exact h index svc' hold hrestart hserved
  | account _ code => exact account code h paired.reapFirst

theorem of_loaded (h : Loaded s) : Looped s := by
  intro index svc hfound _ _
  obtain ⟨hstate, hfailures⟩ := h.down svc (List.mem_of_getElem? hfound)
  have hnone : life index s.trace = [] := by
    refine List.filter_eq_nil_iff.mpr fun event hmem => ?_
    obtain ⟨services, rfl⟩ := h.calls event hmem
    exact Bool.false_ne_true
  rw [hstate, hfailures, hnone]
  exact .idle

end Looped

/-- In every run without operators, of a service whose program can always be started, the
delays follow the policy as long as the service has ended at most once, and no longer. -/
theorem crash_loop_backs_off_iff (silent : Silent w) (reached : Reaches w nextTid s) {svc : Service}
    (found : s.services[index]? = some svc) (restart : svc.restart = true)
    (served : Event.refused index ∉ s.trace) :
    BacksOff index (life index s.trace) ↔ (life index s.trace).count (.exited index) ≤ 1 := by
  obtain ⟨loaded, hloaded, hmoves⟩ := reached.loop silent
  have hlooped : Sound s ∧ Looped s := by
    clear reached found served
    induction hmoves with
    | refl => exact ⟨.of_loaded hloaded, .of_loaded hloaded⟩
    | tail _ step ih => exact ⟨ih.1.loopMove step, ih.2.loopMove ih.1.paired step⟩
  exact (hlooped.2 index svc found restart served).backsOff_iff

/-- The one service of the roster ends as soon as it is up. -/
def crashLoop : Surroundings :=
  steady [ascii "a autostart restart"] (fun _ => [(1, 7), (2, 7)]) fun _ => .error 10

theorem crashLoop_silent : Silent crashLoop := by
  rintro n words ⟨⟩

theorem crash_loop_backs_off_iff_once : ∃ s, Reaches crashLoop 1 s ∧
    (life 0 s.trace).count (.exited 0) = 1 ∧ BacksOff 0 (life 0 s.trace) := by
  obtain ⟨s, hreached, hrun⟩ := @Reaches.of_rounds crashLoop 1 2
    (fun s => s.services[0]? = some { sampleService 97 true (.running 2) 0 with restarts := 1 } ∧
      .refused 0 ∉ s.trace ∧ (life 0 s.trace).count (.exited 0) = 1) (by decide +kernel)
  obtain ⟨hfound, hserved, hcount⟩ := of_decide_eq_true hrun
  exact ⟨s, hreached, hcount,
    (crash_loop_backs_off_iff crashLoop_silent hreached hfound rfl hserved).mpr hcount.le⟩

/-- The second delay is as long as the first. -/
theorem second_delay_not_doubled : ∃ s, Silent crashLoop ∧ Reaches crashLoop 1 s ∧
    (s.services[0]?.map Service.restart) = some true ∧ Event.refused 0 ∉ s.trace ∧
    life 0 s.trace = [.spawned 0 1 [] none, .exited 0, .backoff 0 80 40, .spawned 0 2 [] (some 140),
      .exited 0, .backoff 0 200 40, .spawned 0 3 [] (some 260)] ∧ ¬ BacksOff 0 (life 0 s.trace) := by
  obtain ⟨s, hreached, hrun⟩ := @Reaches.of_rounds crashLoop 1 4
    (fun s => (s.services[0]?.map Service.restart) = some true ∧ .refused 0 ∉ s.trace ∧
      life 0 s.trace = [.spawned 0 1 [] none, .exited 0, .backoff 0 80 40, .spawned 0 2 [] (some 140),
        .exited 0, .backoff 0 200 40, .spawned 0 3 [] (some 260)]) (by decide +kernel)
  obtain ⟨hrestart, hserved, hlife⟩ := of_decide_eq_true hrun
  refine ⟨s, crashLoop_silent, hreached, hrestart, hserved, hlife, fun hpolicy => ?_⟩
  rw [hlife] at hpolicy
  obtain ⟨now, rest, htail, -⟩ := (hpolicy [_, _, _, _] _ rfl).1 (by decide)
  cases htail

end Redoubt.Services
