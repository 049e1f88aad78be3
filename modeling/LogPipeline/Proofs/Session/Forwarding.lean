import LogPipeline.Proofs.Run
import LogPipeline.Session

/-!
# What a session forwards

A session is a run of its pipeline, in which each turn is at most one move
(`system_run`). The forwarded lines are a beginning of the input; forwarding ends at its
end, at the first line that cannot be read, or after an interrupt (`placed_run`), and the
number of lines that it gives is that of the lines it has forwarded (`count_run`).
-/

namespace LogPipeline

namespace Intake

/-! ## Forwarding all at once -/

/-- Lines that can be read are forwarded, as long as no interrupt comes. -/
theorem forward_map_some (lines : List String) (rest : List (Option String)) (k : Option Nat) :
    forward (k.map (lines.length + ·)) (lines.map some ++ rest) =
      (lines ++ (forward k rest).1, (forward k rest).2) := by
  induction lines with
  | nil => cases k <;> simp
  | cons line lines ih =>
    have hk : k.map ((line :: lines).length + ·) ≠ some 0 := by cases k <;> simp
    have hpred : (k.map ((line :: lines).length + ·)).map (· - 1) =
        k.map (lines.length + ·) := by
      cases k <;> simp [Nat.add_right_comm]
    rw [List.map_cons, List.cons_append, forward, if_neg hk, hpred]
    simp only [ih]
    rfl

/-- How forwarding may end before the lines that are left. -/
def Ending.Fits (ends signalled : Bool) (rest : List (Option String)) : Ending → Prop
  | .inputEnd => rest = [] ∧ ends = true
  | .unreadable => ∃ later, rest = none :: later
  | .interrupted => signalled = true

/-- Forwarding that ends so is that of the whole input with or without an interrupt. -/
theorem Ending.Fits.forward {ending : Ending} {ends signalled : Bool} {lines : List String}
    {rest : List (Option String)} (h : ending.Fits ends signalled rest) :
    ∃ k, Intake.forward k (lines.map some ++ rest) = (lines, ending) := by
  cases ending with
  | inputEnd =>
    obtain ⟨rfl, -⟩ := h
    exact ⟨none, by simpa [Intake.forward] using forward_map_some lines [] none⟩
  | unreadable =>
    obtain ⟨later, rfl⟩ := h
    exact ⟨none, by simpa [Intake.forward] using forward_map_some lines (none :: later) none⟩
  | interrupted =>
    refine ⟨some lines.length, ?_⟩
    have hzero : Intake.forward (some 0) rest = ([], .interrupted) := by
      cases rest <;> simp [Intake.forward]
    simpa [hzero] using forward_map_some lines rest (some 0)

namespace Session

variable {c : Config} {w : World} {lines : List (Option String)} {ends : Bool}

/-! ## A session as a run -/

/-- What a turn does to the pipeline. -/
def movesOf (s : Session) : Turn → List Move
  | .actor a => [.act a]
  | .outside w => [.outside w]
  | t => ((s.act t).2.map (Move.begin 0)).toList

def movesFrom (s : Session) : List Turn → List Move
  | [] => []
  | t :: ts => s.movesOf t ++ (s.next t).movesFrom ts

/-- What happens to the pipeline in a session. -/
def moves (c : Config) (w : World) (lines : List (Option String)) (ends : Bool)
    (ts : List Turn) : List Move :=
  .begin 0 (.apply c) :: (new c w lines ends).movesFrom ts

theorem run_concat (ts : List Turn) (t : Turn) :
    run c w lines ends (ts ++ [t]) = (run c w lines ends ts).next t := by
  simp [run]

theorem movesFrom_concat (s : Session) (ts : List Turn) (t : Turn) :
    s.movesFrom (ts ++ [t]) = s.movesFrom ts ++ (ts.foldl next s).movesOf t := by
  induction ts generalizing s with
  | nil => simp [movesFrom]
  | cons u ts ih => simp [movesFrom, ih]

theorem moves_concat (ts : List Turn) (t : Turn) :
    moves c w lines ends (ts ++ [t]) =
      moves c w lines ends ts ++ (run c w lines ends ts).movesOf t := by
  rw [moves, movesFrom_concat]
  rfl

theorem system_next (s : Session) (t : Turn) :
    (s.next t).system = s.system.runFrom (s.movesOf t) := by
  cases t with
  | actor a => rfl
  | outside w => rfl
  | _ =>
    simp only [next, drive, movesOf]
    split <;> next hcall => rw [hcall]; rfl

/-- A session is a run of its pipeline. -/
theorem system_run (ts : List Turn) :
    (run c w lines ends ts).system = System.run w (moves c w lines ends ts) := by
  induction ts using List.reverseRecOn with
  | nil => rfl
  | append_singleton ts t ih => rw [run_concat, system_next, moves_concat, System.run_append, ih]

/-! ## Turns -/

/-- Why forwarding ends. -/
def Closes (s : Session) : Ending → Prop
  | .inputEnd => s.channel = [] ∧ s.readerGone = true
  | .unreadable => ∃ rest, s.channel = none :: rest
  | .interrupted => s.signalled = true

/-- What the program does when it waits for a line. -/
theorem receive_cases {P : Session × Option Call → Prop} (s : Session) (nothing : P (s, none))
    (logs : ∀ line rest, s.channel = some line :: rest →
      P ({ s with channel := rest, stage := .logging, forwarded := s.forwarded ++ [line] },
        some (lineCall line)))
    (stops : ∀ ending, s.Closes ending → P (s.finish ending)) :
    P s.receive := by
  unfold receive
  split
  · next line rest hchannel => exact logs line rest hchannel
  · next rest hchannel => exact stops .unreadable ⟨rest, hchannel⟩
  · next hchannel =>
    split
    · next hgone => exact stops .inputEnd ⟨hchannel, hgone⟩
    · exact nothing

/-- What a turn can do to a session and its pipeline. -/
theorem next_cases {P : Session → List Move → Prop} (s : Session) (t : Turn)
    (nothing : P s [])
    (reads : ∀ line rest, s.readerGone = false → s.unread = line :: rest → s.isClosed = false →
      P { s with unread := rest, channel := s.channel ++ [line] } [])
    (drops : ∀ rest, s.isClosed = true → P { s with unread := rest, readerGone := true } [])
    (readerEnds : s.unread = [] → s.ends = true → P { s with readerGone := true } [])
    (signal : P { s with signalled := true } [])
    (starts : s.isIdle = true → s.stage = .configuring →
      P { s with stage := .starting, system := s.system.begin 0 .start } [.begin 0 .start])
    (started : s.isIdle = true → s.stage = .starting → P { s with stage := .awaiting } [])
    (logs : s.stage = .awaiting → ∀ line rest, s.channel = some line :: rest →
      P { s with
          channel := rest
          stage := .logging
          forwarded := s.forwarded ++ [line]
          system := s.system.begin 0 (lineCall line) } [.begin 0 (lineCall line)])
    (logged : s.isIdle = true → s.stage = .logging →
      P { s with stage := .awaiting, count := s.count + 1 } [])
    (stops : s.stage = .awaiting → ∀ ending, s.Closes ending →
      P { s with channel := [], stage := .stopping ending, system := s.system.begin 0 .stop }
        [.begin 0 .stop])
    (exits : s.isIdle = true → ∀ ending, s.stage = .stopping ending →
      P { s with stage := .exited ending } [])
    (actor : ∀ a, P { s with system := s.system.next (.act a) } [.act a])
    (outside : ∀ w, P { s with system := s.system.next (.outside w) } [.outside w]) :
    P (s.next t) (s.movesOf t) := by
  -- what the program does goes on to the pipeline
  let drives : Session × Option Call → Prop := fun r =>
    P { r.1 with system := drive s.system r.2 .program } (r.2.map (Move.begin 0)).toList
  have hnothing : drives (s, none) := nothing
  have hread : drives (s.read, none) := by
    unfold read
    split
    · exact nothing
    · next hgone =>
      split
      · next hunread =>
        split
        · next hends => exact readerEnds hunread hends
        · exact nothing
      · next line rest hunread =>
        split
        · next hclosed => exact drops rest hclosed
        · next hclosed =>
          split
          · exact reads line rest (by simpa using hgone) hunread (by simpa using hclosed)
          · exact nothing
  cases t with
  | reader =>
    show drives (s.act .reader)
    simp only [act]
    split
    · exact hnothing
    · exact hnothing
    · exact hread
  | signal => exact signal
  | program =>
    show drives (s.act .program)
    simp only [act]
    split
    · next hidle =>
      unfold proceed
      split
      · next hstage => exact starts hidle hstage
      · next hstage => exact started hidle hstage
      · next hstage => exact receive_cases s hnothing (logs hstage) (stops hstage)
      · next hstage => exact logged hidle hstage
      · next ending hstage => exact exits hidle ending hstage
      · exact hnothing
    · exact hnothing
  | interrupt =>
    show drives (s.act .interrupt)
    simp only [act]
    split
    · next h => exact stops h.1 .interrupted h.2
    · exact hnothing
  | actor a => exact actor a
  | outside w => exact outside w

/-! ## Where the lines are -/

/-- Where the lines of the input are: forwarded, in the channel or not yet read, until
forwarding ends; what is left then says why. -/
structure Placed (lines : List (Option String)) (ends : Bool) (s : Session) : Prop where
  ends_eq : s.ends = ends
  during : s.isClosed = false → lines = s.forwarded.map some ++ s.channel ++ s.unread ∧
    (s.readerGone = true → s.unread = [] ∧ ends = true)
  after : ∀ ending, s.stage = .stopping ending ∨ s.stage = .exited ending →
    ∃ rest, lines = s.forwarded.map some ++ rest ∧ ending.Fits ends s.signalled rest

theorem isClosed_eq_false {s : Session} :
    s.isClosed = false ↔ ∀ ending, s.stage ≠ .stopping ending ∧ s.stage ≠ .exited ending := by
  unfold isClosed
  split <;> simp_all

/-- What is left when forwarding ends says why. -/
theorem Placed.fits {s : Session} (h : Placed lines ends s) (hopen : s.isClosed = false)
    {ending : Ending} (hcloses : s.Closes ending) :
    ending.Fits ends s.signalled (s.channel ++ s.unread) := by
  obtain ⟨-, hgone⟩ := h.during hopen
  cases ending with
  | inputEnd =>
    obtain ⟨hchannel, hreader⟩ := hcloses
    obtain ⟨hunread, hends⟩ := hgone hreader
    exact ⟨by rw [hchannel, hunread]; rfl, hends⟩
  | unreadable =>
    obtain ⟨rest, hchannel⟩ := hcloses
    exact ⟨rest ++ s.unread, by rw [hchannel]; rfl⟩
  | interrupted => exact hcloses

theorem placed_next {s : Session} (h : Placed lines ends s) (t : Turn) :
    Placed lines ends (s.next t) := by
  have hopen : ∀ {stage}, s.stage = stage → (∀ ending, stage ≠ .stopping ending ∧
      stage ≠ .exited ending) → s.isClosed = false := fun hs hne =>
    isClosed_eq_false.2 (hs ▸ hne)
  apply next_cases (P := fun s' _ => Placed lines ends s') s t
  case nothing => exact h
  case reads =>
    intro line rest hreader hunread hclosed
    obtain ⟨hlines, hgone⟩ := h.during hclosed
    refine ⟨h.ends_eq, fun _ => ⟨?_, fun hgone' => ?_⟩, h.after⟩
    · simpa [hunread] using hlines
    · exact absurd (hgone'.symm.trans hreader) (by decide)
  case drops =>
    intro rest hclosed
    exact ⟨h.ends_eq, fun hopen' => absurd (hopen'.symm.trans hclosed) (by decide), h.after⟩
  case readerEnds =>
    intro hunread hends
    exact ⟨h.ends_eq, fun hclosed => ⟨(h.during hclosed).1, fun _ => ⟨hunread, h.ends_eq ▸ hends⟩⟩,
      h.after⟩
  case signal =>
    refine ⟨h.ends_eq, h.during, fun ending hstage => ?_⟩
    obtain ⟨rest, hlines, hfits⟩ := h.after ending hstage
    refine ⟨rest, hlines, ?_⟩
    cases ending <;> first | rfl | exact hfits
  case starts =>
    intro _ hs
    exact ⟨h.ends_eq, fun _ => h.during (hopen hs (by simp)), by simp⟩
  case started =>
    intro _ hs
    exact ⟨h.ends_eq, fun _ => h.during (hopen hs (by simp)), by simp⟩
  case logs =>
    intro hs line rest hchannel
    obtain ⟨hlines, hgone⟩ := h.during (hopen hs (by simp))
    exact ⟨h.ends_eq, fun _ => ⟨by simpa [hchannel] using hlines, hgone⟩, by simp⟩
  case logged =>
    intro _ hs
    exact ⟨h.ends_eq, fun _ => h.during (hopen hs (by simp)), by simp⟩
  case stops =>
    intro hs ending hcloses
    have hclosed := hopen hs (by simp)
    refine ⟨h.ends_eq, fun hclosed' => by simp [isClosed] at hclosed', fun ending' hstage => ?_⟩
    obtain rfl : ending = ending' := by simpa using hstage
    refine ⟨s.channel ++ s.unread, ?_, h.fits hclosed hcloses⟩
    rw [← List.append_assoc]
    exact (h.during hclosed).1
  case exits =>
    intro _ ending hs
    refine ⟨h.ends_eq, fun hclosed => by simp [isClosed] at hclosed, fun ending' hstage => ?_⟩
    obtain rfl : ending = ending' := by simpa using hstage
    exact h.after ending (.inl hs)
  case actor | outside =>
    intro _
    exact ⟨h.ends_eq, h.during, h.after⟩

/-- In every session, each line of the input is in one place. -/
theorem placed_run (ts : List Turn) : Placed lines ends (run c w lines ends ts) := by
  induction ts using List.reverseRecOn with
  | nil => exact ⟨rfl, fun _ => ⟨rfl, nofun⟩, by simp [run, new]⟩
  | append_singleton ts t ih =>
    rw [run_concat]
    exact placed_next ih t

/-! ## Counting -/

/-- The forwarded lines are counted, but for the one being logged. -/
theorem count_run (ts : List Turn) :
    (run c w lines ends ts).forwarded.length =
      (run c w lines ends ts).count + if (run c w lines ends ts).stage = .logging then 1 else 0 := by
  induction ts using List.reverseRecOn with
  | nil => rfl
  | append_singleton ts t ih =>
    rw [run_concat]
    apply next_cases (P := fun s _ =>
      s.forwarded.length = s.count + if s.stage = .logging then 1 else 0)
    all_goals
      intros
      simp_all

/-- No line is forwarded before the pipeline is started. -/
theorem forwarded_of_configuring (ts : List Turn)
    (h : (run c w lines ends ts).stage = .configuring) :
    (run c w lines ends ts).forwarded = [] := by
  induction ts using List.reverseRecOn with
  | nil => rfl
  | append_singleton ts t ih =>
    rw [run_concat] at h ⊢
    revert h
    apply next_cases (P := fun s _ => s.stage = .configuring → s.forwarded = [])
    all_goals
      intros
      simp_all

end Session

end Intake

end LogPipeline
