import StudyCode.Servers.ThreadClosing

/-!
# What the threading server leaks

A cell goes from `run` to a thread, which deletes it. Where no thread can be
created, `release` has already given the cell up, and nobody deletes it. The
descriptors are all closed.
-/
namespace StudyCode.ThreadServer
open StudyCode.Scheduled StudyCode.Custody StudyCode.Monitor

/-- The cell that a thread still has to delete. -/
def Stage.cell? : Stage → Option ℕ
  | .created p | .loaded p _ => some p
  | .receiving _ | .sending _ | .closing _ | .exited => none

/-- The cell that `run` still has to hand over. -/
def Main.cell? : Main → Option ℕ
  | .stored _ _ p => some p
  | .accepting | .accepted _ _ | .failed _ _ => none

/-- The cells in the hands of `run` and of the threads. -/
def Server.cells (s : Server) : List ℕ :=
  s.main.cell?.toList ++ s.handlers.filterMap fun h => h.stage.cell?

variable {s t : Server} {turns : List Turn} {os : List Event}

/-- A turn of thread `i` changes the cells in hand by its own. -/
theorem cells_goOn {i : ℕ} {h : Handler} (here : s.handlers[i]? = some h) :
    ∃ rest, s.cells.Perm (h.stage.cell?.toList ++ rest) ∧
      ∀ stage, (s.goOn i h stage).cells.Perm (stage.cell?.toList ++ rest) := by
  obtain ⟨rest, before, after⟩ :=
    filterMap_set_perm (fun h : Handler => h.stage.cell?) here
  refine ⟨s.main.cell?.toList ++ rest, ?_, fun stage => ?_⟩
  · exact (before.append_left _).trans (List.perm_append_comm_assoc ..)
  · exact ((after { h with stage := stage }).append_left _).trans (List.perm_append_comm_assoc ..)

theorem cells_goOn_same {i : ℕ} {h : Handler} {stage : Stage} (here : s.handlers[i]? = some h)
    (same : stage.cell? = h.stage.cell?) : s.cells.Perm (s.goOn i h stage).cells := by
  obtain ⟨rest, before, after⟩ := cells_goOn here
  exact before.trans (same ▸ (after stage).symm)

/-- The live cells are those in hand and the lost ones. -/
def Accounted (s : Server) (lost : List ℕ) : Prop := Inventory s.heap (s.cells ++ lost)

theorem Accounted.keep {lost : List ℕ} (h : Accounted s lost) (heap : t.heap = s.heap)
    (cells : s.cells.Perm t.cells) : Accounted t lost := by
  rw [Accounted, heap]
  exact h.perm (cells.append_right lost)

theorem Accounted.goOn {lost : List ℕ} {i : ℕ} {h : Handler} {stage : Stage}
    (accounted : Accounted s lost) (here : s.handlers[i]? = some h)
    (same : stage.cell? = h.stage.cell?) : Accounted (s.goOn i h stage) lost :=
  accounted.keep rfl (cells_goOn_same here same)

theorem Accounted.accept {lost : List ℕ} {fd : ℤ} {o : List Event} (h : Accounted s lost)
    (hs : step s (.accept fd) = some (t, o)) : Accounted t lost := by
  simp only [step] at hs
  split at hs
  · rename_i place
    split at hs
    · cases hs
      exact h
    · obtain ⟨-, eq⟩ := Option.ite_none_right_eq_some.mp hs
      cases eq
      exact h.keep rfl (by simp [Server.cells, place, Main.cell?])
  · cases hs

theorem Accounted.makeUnique {lost : List ℕ} {p : ℕ} {o : List Event} (h : Accounted s lost)
    (hs : step s (.makeUnique p) = some (t, o)) : Accounted t lost := by
  simp only [step] at hs
  split at hs
  · rename_i conn fd place
    obtain ⟨free, eq⟩ := Option.ite_none_right_eq_some.mp hs
    cases eq
    have grown := Inventory.alloc h free ⟨fd, conn⟩
    rw [Server.cells, place] at grown
    exact grown
  · cases hs

/-- Only a `pthread_create` that fails loses a cell. -/
theorem Accounted.createThread {lost : List ℕ} {created : Bool} {o : List Event}
    (h : Accounted s lost) (hs : step s (.createThread created) = some (t, o)) :
    ∃ lost', lost'.length = lost.length + (!created).toNat ∧ Accounted t lost' := by
  simp only [step] at hs
  split at hs
  · rename_i conn fd p place
    have held : s.cells = p :: s.handlers.filterMap fun h => h.stage.cell? := by
      rw [Server.cells, place]
      rfl
    cases created with
    | true =>
        cases hs
        refine ⟨lost, rfl, h.keep rfl ?_⟩
        rw [held, Server.cells, List.filterMap_append]
        exact (List.perm_append_singleton ..).symm
    | false =>
        cases hs
        refine ⟨p :: lost, rfl, h.perm ?_⟩
        rw [held]
        exact List.perm_middle.symm
  · cases hs

theorem Accounted.closeFailed {lost : List ℕ} {o : List Event} (h : Accounted s lost)
    (hs : step s .closeFailed = some (t, o)) : Accounted t lost := by
  simp only [step] at hs
  split at hs
  · rename_i place
    cases hs
    exact h.keep rfl (by simp [Server.cells, place, Main.cell?])
  · cases hs

theorem Accounted.load {lost : List ℕ} {i : ℕ} {h : Handler} {o : List Event}
    (accounted : Accounted s lost) (sound : Sound s) (here : s.handlers[i]? = some h)
    (hs : load s i h = some (t, o)) : Accounted t lost := by
  obtain ⟨conn, stage⟩ := h
  have holds := sound.handlers here
  cases stage with
  | created p =>
      obtain ⟨fd, cell, -⟩ := holds
      simp only [ThreadServer.load, cell] at hs
      cases hs
      exact accounted.goOn here rfl
  | _ => cases hs

theorem Accounted.delete {lost : List ℕ} {i : ℕ} {h : Handler} {o : List Event}
    (accounted : Accounted s lost) (sound : Sound s) (here : s.handlers[i]? = some h)
    (hs : delete s i h = some (t, o)) : Accounted t lost := by
  obtain ⟨conn, stage⟩ := h
  have holds := sound.handlers here
  cases stage with
  | loaded p fd =>
      simp only [ThreadServer.delete, holds.1] at hs
      cases hs
      obtain ⟨rest, before, after⟩ := cells_goOn here
      have left := (accounted.perm (before.append_right lost)).free
      exact left.perm ((after (.receiving fd)).symm.append_right lost)
  | _ => cases hs

theorem Accounted.recv {lost : List ℕ} {i : ℕ} {h : Handler} {valread : ℤ} {o : List Event}
    (accounted : Accounted s lost) (here : s.handlers[i]? = some h)
    (hs : recv s i h valread = some (t, o)) : Accounted t lost := by
  obtain ⟨conn, stage⟩ := h
  cases stage with
  | receiving fd =>
      cases hs
      exact accounted.goOn here (by split <;> rfl)
  | _ => cases hs

theorem Accounted.send {lost : List ℕ} {i : ℕ} {h : Handler} {o : List Event}
    (accounted : Accounted s lost) (here : s.handlers[i]? = some h)
    (hs : send s i h = some (t, o)) : Accounted t lost := by
  obtain ⟨conn, stage⟩ := h
  cases stage with
  | sending fd =>
      cases hs
      exact accounted.goOn here rfl
  | _ => cases hs

theorem Accounted.close {lost : List ℕ} {i : ℕ} {h : Handler} {o : List Event}
    (accounted : Accounted s lost) (here : s.handlers[i]? = some h)
    (hs : close s i h = some (t, o)) : Accounted t lost := by
  obtain ⟨conn, stage⟩ := h
  cases stage with
  | closing fd =>
      cases hs
      exact accounted.goOn here rfl
  | _ => cases hs

theorem Accounted.step {lost : List ℕ} {turn : Turn} {o : List Event} (h : Accounted s lost)
    (sound : Sound s) (hs : step s turn = some (t, o)) :
    ∃ lost', lost'.length = lost.length + [turn].count (.createThread false) ∧
      Accounted t lost' := by
  cases turn with
  | accept fd => exact ⟨lost, rfl, h.accept hs⟩
  | makeUnique p => exact ⟨lost, rfl, h.makeUnique hs⟩
  | createThread created =>
      obtain ⟨lost', length, accounted⟩ := h.createThread hs
      refine ⟨lost', length.trans ?_, accounted⟩
      cases created <;> rfl
  | closeFailed => exact ⟨lost, rfl, h.closeFailed hs⟩
  | load i =>
      obtain ⟨handler, here, hs⟩ := Option.bind_eq_some_iff.mp hs
      exact ⟨lost, rfl, h.load sound here hs⟩
  | delete i =>
      obtain ⟨handler, here, hs⟩ := Option.bind_eq_some_iff.mp hs
      exact ⟨lost, rfl, h.delete sound here hs⟩
  | recv i valread =>
      obtain ⟨handler, here, hs⟩ := Option.bind_eq_some_iff.mp hs
      exact ⟨lost, rfl, h.recv here hs⟩
  | send i =>
      obtain ⟨handler, here, hs⟩ := Option.bind_eq_some_iff.mp hs
      exact ⟨lost, rfl, h.send here hs⟩
  | close i =>
      obtain ⟨handler, here, hs⟩ := Option.bind_eq_some_iff.mp hs
      exact ⟨lost, rfl, h.close here hs⟩

theorem accounted_start : Accounted threadServer.start [] := inventory_nil

theorem reaches_accounted (run : threadServer.Reaches turns s os) :
    ∃ lost, lost.length = turns.count (.createThread false) ∧ Accounted s lost := by
  refine run.induct
    (P := fun turns s _ => ∃ lost, lost.length = turns.count (.createThread false) ∧
      Accounted s lost) ⟨[], rfl, accounted_start⟩ ?_
  rintro turns s os turn t o before ⟨lost, length, accounted⟩ hs
  obtain ⟨lost', longer, accounted'⟩ := accounted.step (reaches_sound before) hs
  exact ⟨lost', by rw [longer, length, List.count_append], accounted'⟩

/-! ## Descriptors -/

/-- Whoever is at work on a connection has its descriptor open. -/
theorem Sound.pending_open {k : ℕ} (sound : Sound s) (pending : s.Pending k) :
    ∃ fd, s.fds fd = some k := by
  rcases pending with place | ⟨i, ⟨conn, stage⟩, here, rfl, busy⟩
  · have held := sound.main
    rw [Server.MainHolds] at held
    cases main : s.main with
    | accepting =>
        rw [main] at place
        cases place
    | accepted conn fd =>
        rw [main] at place held
        cases place
        exact ⟨fd, held⟩
    | stored conn fd p =>
        rw [main] at place held
        cases place
        exact ⟨fd, held.2⟩
    | failed conn fd =>
        rw [main] at place held
        cases place
        exact ⟨fd, held⟩
  · have holds := sound.handlers here
    cases stage with
    | created p =>
        obtain ⟨fd, -, file⟩ := holds
        exact ⟨fd, file⟩
    | loaded p fd => exact ⟨fd, holds.2⟩
    | receiving fd => exact ⟨fd, holds⟩
    | sending fd => exact ⟨fd, holds⟩
    | closing fd => exact ⟨fd, holds⟩
    | exited => exact absurd rfl busy

theorem Effect.open_pending {o : List Event} (effect : Effect s t o) (accepted : Accepted s os)
    (h : ∀ {fd k}, s.fds fd = some k → s.Pending k) {fd : ℤ} {k : ℕ}
    (file : t.fds fd = some k) : t.Pending k := by
  cases effect with
  | quiet fds accepts pending => exact (pending k).mpr (h (fds ▸ file))
  | recv conn n held fds accepts pending => exact (pending k).mpr (h (fds ▸ file))
  | send conn n held fds accepts pending => exact (pending k).mpr (h (fds ▸ file))
  | accept n fds accepts pending =>
      rw [fds, Function.update_apply] at file
      split at file
      · cases file
        exact (pending _).mpr (.inr rfl)
      · exact (pending k).mpr (.inl (h file))
  | close thread conn n held fds accepts was pending =>
      rw [fds, Function.update_apply] at file
      split at file
      · cases file
      · rename_i other
        refine (pending k).mpr ⟨h file, ?_⟩
        rintro rfl
        exact other (accepted.once (accepted.files file) (accepted.files held))

theorem reaches_open_pending (run : threadServer.Reaches turns s os) {fd : ℤ} {k : ℕ}
    (file : s.fds fd = some k) : s.Pending k := by
  revert fd k
  refine run.induct (P := fun _ s _ => ∀ {fd k}, s.fds fd = some k → s.Pending k) nofun ?_
  intro turns s os turn t o before h hs fd k
  exact ((reaches_sound before).step hs).2.2.open_pending (reaches_accepted before) h

/-- For every sequence of results of `accept`, `pthread_create` and `recv`, every reuse of
numbers and of cells, and any interleaving: a connection has an open descriptor, just one,
exactly if `run` or a thread is at work on it; and each cell that is not deleted is in the
hand of `run`, in that of one thread, or lost, where one was lost for each
`pthread_create` that failed. So when nobody is at work, no descriptor is open and the
lost cells are all there are. -/
theorem thread_server_leaks_failed_cells (run : threadServer.Reaches turns s os) :
    (∀ k, s.Pending k ↔ ∃ fd, s.fds fd = some k) ∧
      (∀ fd fd' k, s.fds fd = some k → s.fds fd' = some k → fd = fd') ∧
      ∃ lost, lost.length = turns.count (.createThread false) ∧
        Inventory s.heap (s.cells ++ lost) ∧ ((∀ k, ¬ s.Pending k) → s.cells = []) := by
  have accepted := reaches_accepted run
  obtain ⟨lost, length, accounted⟩ := reaches_accounted run
  refine ⟨fun k => ⟨(reaches_sound run).pending_open, ?_⟩, ?_, lost, length, accounted, ?_⟩
  · rintro ⟨fd, file⟩
    exact reaches_open_pending run file
  · exact fun fd fd' k file file' => accepted.once (accepted.files file) (accepted.files file')
  · intro idle
    refine List.append_eq_nil_iff.mpr ⟨?_, List.filterMap_eq_nil_iff.mpr fun h mem => ?_⟩
    · cases main : s.main with
      | stored conn fd p => exact absurd (.inl (by rw [main]; rfl)) (idle conn)
      | accepting | accepted _ _ | failed _ _ => rfl
    · obtain ⟨i, here⟩ := List.mem_iff_getElem?.mp mem
      have left : h.stage = .exited := by
        by_contra busy
        exact idle h.conn (.inr ⟨i, h, here, rfl, busy⟩)
      rw [left]
      rfl

/-- A client that is served, and two for whom no thread can be created. -/
theorem thread_server_leaks_failed_cells_two :
    ∃ turns s os lost, threadServer.Reaches turns s os ∧ lost.length = 2 ∧
      Inventory s.heap (s.cells ++ lost) ∧ s.cells = [4] := by
  have run : threadServer.Reaches
      [.accept 5, .makeUnique 0, .createThread true, .load 0, .accept 6, .makeUnique 1,
        .createThread false, .closeFailed, .delete 0, .accept 6, .makeUnique 0,
        .createThread false, .closeFailed, .recv 0 4, .accept 6, .makeUnique 4] _ _ := rfl
  obtain ⟨-, -, lost, length, accounted, -⟩ := thread_server_leaks_failed_cells run
  exact ⟨_, _, _, lost, run, length, accounted, rfl⟩

end StudyCode.ThreadServer
