import PirateShip.Rpc.Framing

/-! Reading when the peer closes the connection. A read then returns no bytes, and the loop
that waits for missing bytes goes on for ever: only a failed transport ends it. -/

set_option autoImplicit false

namespace PirateShip

open List Option

/-- What the transport does after its last bytes: every read returns 0, or an error. -/
inductive StreamEnd where
  | closed
  | failed
  deriving DecidableEq

/-- How far a call is after some iterations of its loops. -/
inductive Progress (Result : Type) where
  | running
  | panicked
  | error
  | returned (result : Result)
  deriving DecidableEq

def Progress.bind {Result Next : Type} (progress : Progress Result) (next : Result → Progress Next) :
    Progress Next :=
  match progress with
  | .running => .running
  | .panicked => .panicked
  | .error => .error
  | .returned result => next result

theorem Progress.bind_settled {Result Next : Type} {progress : Progress Result}
    {next later : Result → Progress Next} (settled : progress.bind next ≠ .running)
    (same : ∀ result, next result ≠ .running → later result = next result) :
    progress.bind later = progress.bind next := by
  cases progress with
  | returned result => exact same result settled
  | running | panicked | error => rfl

namespace FrameReader

/-- `read`, which never waits: the reads that are left are those before the end. -/
def read (ending : StreamEnd) (reader : FrameReader) : Progress FrameReader :=
  match reader.stream, ending with
  | [], .closed => .returned { reader with offset := 0, bound := 0 }
  | [], .failed => .error
  | read :: stream, _ => .returned ⟨read ++ reader.buffer.drop read.length, stream, 0, read.length⟩

def copy (v : Bytes) (pos size : Nat) (reader : FrameReader) : Progress Bytes :=
  match overwrite v pos ((reader.buffer.drop reader.offset).take size) size with
  | none => .panicked
  | some v => .returned v

def readFor (ending : StreamEnd) : Nat → FrameReader → Nat → Nat → Bytes → Progress (FrameReader × Bytes)
  | 0, _, _, _, _ => .running
  | fuel + 1, reader, n, pos, v =>
    if n = 0 then .returned (reader, v)
    else
      (if reader.bound = reader.offset then reader.read ending else .returned reader).bind fun reader =>
        let fetched := reader.bound - reader.offset
        if fetched ≥ n then
          (reader.copy v pos n).bind fun v =>
            readFor ending fuel { reader with offset := reader.offset + n } 0 pos v
        else
          (reader.copy v pos fetched).bind fun v =>
            readFor ending fuel { reader with offset := reader.bound } (n - fetched) (pos + fetched) v

def readNextBytesFor (ending : StreamEnd) (fuel : Nat) (reader : FrameReader) (n : Nat) (v : Bytes) :
    Progress (FrameReader × Bytes) :=
  readFor ending fuel reader n 0 v

/-- `get_next_frame` with so many iterations for each of its two loops. -/
def getNextFrameFor (ending : StreamEnd) (fuel : Nat) (reader : FrameReader) (buff : Bytes) :
    Progress (Nat × FrameReader × Bytes) :=
  (readNextBytesFor ending fuel reader 4 (List.replicate 4 0)).bind fun (reader, szVec) =>
    let sz := fromBeBytes szVec
    let buff := if sz > buff.length then buff ++ List.replicate (sz - buff.length) 0 else buff
    (readNextBytesFor ending fuel reader sz buff).bind fun (reader, buff) => .returned (sz, reader, buff)

/-!
## Bytes that are available
-/

variable {reader : FrameReader} {ending : StreamEnd} {fuel n pos : Nat} {v buff : Bytes}

theorem read_of_fetch {fetched} (taken : reader.fetch = some fetched) : reader.read ending = .returned fetched := by
  unfold fetch at taken
  unfold read
  split at taken
  · cases taken
  · next stream => simp [stream, some.inj taken]

theorem copy_of_overwrite {size copied}
    (stored : overwrite v pos ((reader.buffer.drop reader.offset).take size) size = some copied) :
    reader.copy v pos size = .returned copied := by
  rw [copy, stored]

theorem readFor_of_readLoop {result} (returns : readLoop fuel reader n pos v = some result) :
    readFor ending fuel reader n pos v = .returned result := by
  induction fuel generalizing reader n pos v with
  | zero => cases returns
  | succ fuel ih =>
    unfold readLoop at returns
    unfold readFor
    split at returns
    · next finished => rw [if_pos finished, some.inj returns]
    · next unfinished =>
      rw [if_neg unfinished]
      obtain ⟨ready, fetched, rest⟩ := bind_eq_some_iff.mp returns
      have started : (if reader.bound = reader.offset then reader.read ending else .returned reader) =
          .returned ready := by
        split at fetched
        · next empty => rw [if_pos empty, read_of_fetch fetched]
        · next nonempty => rw [if_neg nonempty, some.inj fetched]
      rw [started, Progress.bind]
      dsimp only at rest ⊢
      split at rest
      · next whole =>
        obtain ⟨copied, stored, after⟩ := bind_eq_some_iff.mp rest
        rw [if_pos whole, copy_of_overwrite stored, Progress.bind, ih after]
      · next part =>
        obtain ⟨copied, stored, after⟩ := bind_eq_some_iff.mp rest
        rw [if_neg part, copy_of_overwrite stored, Progress.bind, ih after]

theorem readFor_mono {more} (settled : readFor ending fuel reader n pos v ≠ .running) (larger : fuel ≤ more) :
    readFor ending more reader n pos v = readFor ending fuel reader n pos v := by
  induction fuel generalizing more reader n pos v with
  | zero => exact absurd rfl settled
  | succ fuel ih =>
    obtain ⟨more, rfl⟩ : ∃ k, more = k + 1 := ⟨more - 1, by omega⟩
    unfold readFor at settled ⊢
    split at settled
    · next finished => rw [if_pos finished, if_pos finished]
    · next unfinished =>
      rw [if_neg unfinished, if_neg unfinished]
      refine Progress.bind_settled settled fun ready unready => ?_
      dsimp only at unready ⊢
      split at unready
      · next whole =>
        rw [if_pos whole, if_pos whole]
        exact Progress.bind_settled unready fun copied uncopied => ih uncopied (by omega)
      · next part =>
        rw [if_neg part, if_neg part]
        exact Progress.bind_settled unready fun copied uncopied => ih uncopied (by omega)

theorem readNextBytesFor_spec (ending : StreamEnd) (wellFormed : reader.WellFormed)
    (available : n ≤ reader.remaining.length)
    (fits : n ≤ v.length) :
    ∃ after enough, after.WellFormed ∧ after.remaining = reader.remaining.drop n ∧
      (∀ fuel ≥ enough, readNextBytesFor ending fuel reader n v =
        .returned (after, reader.remaining.take n ++ v.drop n)) ∧
      ∀ fuel, readNextBytesFor ending fuel reader n v = .running ∨
        readNextBytesFor ending fuel reader n v = .returned (after, reader.remaining.take n ++ v.drop n) := by
  obtain ⟨after, returns, wellFormed_after, left⟩ := wellFormed.readNextBytes available fits
  have returned : readNextBytesFor ending (n + reader.stream.length + 1) reader n v =
      .returned (after, reader.remaining.take n ++ v.drop n) := readFor_of_readLoop returns
  have settled : readNextBytesFor ending (n + reader.stream.length + 1) reader n v ≠ .running := by
    rw [returned]
    nofun
  refine ⟨after, _, wellFormed_after, left, fun fuel enough => (readFor_mono settled enough).trans returned, ?_⟩
  intro fuel
  by_cases running : readNextBytesFor ending fuel reader n v = .running
  · exact .inl running
  · right
    -- Both have ended, so they agree where each of them has.
    rw [← returned]
    exact (readFor_mono running (Nat.le_max_left _ _)).symm.trans (readFor_mono settled (Nat.le_max_right _ _))

/-!
## Bytes that are missing
-/

theorem WellFormed.readFor_part (wellFormed : reader.WellFormed) (more : reader.remaining ≠ [])
    (short : reader.remaining.length < n) (fits : pos + n ≤ v.length) :
    ∃ next part copied, (∀ fuel, readFor ending (fuel + 1) reader n pos v =
        readFor ending fuel next (n - part) (pos + part) copied) ∧
      next.WellFormed ∧ next.remaining = reader.remaining.drop part ∧ 0 < part ∧ part ≤ reader.remaining.length ∧
      copied.length = v.length := by
  obtain ⟨ready, fetched, wellFormed_ready, same, nonempty⟩ := wellFormed.ready more
  have started : (if reader.bound = reader.offset then reader.read ending else .returned reader) =
      .returned ready := by
    split at fetched
    · next empty => rw [if_pos empty, read_of_fetch fetched]
    · next nonempty => rw [if_neg nonempty, some.inj fetched]
  have length : ((ready.buffer.take ready.bound).drop ready.offset).length = ready.bound - ready.offset := by
    simp [wellFormed_ready.bound_le]
  have atHand : ready.bound - ready.offset ≤ reader.remaining.length := by
    rw [← same, remaining, length_append, length]
    exact Nat.le_add_right _ _
  obtain ⟨wellFormed_next, taken, left⟩ := wellFormed_ready.advance (Nat.le_refl _) rfl
  have position : ready.offset + (ready.bound - ready.offset) = ready.bound := by omega
  rw [position] at wellFormed_next left
  have size : (ready.remaining.take (ready.bound - ready.offset)).length = ready.bound - ready.offset :=
    length_take_of_le (same ▸ atHand)
  have fits_part : pos + (ready.remaining.take (ready.bound - ready.offset)).length ≤ v.length := by omega
  have stored := overwrite_eq_splice fits_part
  rw [size, ← taken] at stored
  refine ⟨_, ready.bound - ready.offset, _, fun fuel => ?_, wellFormed_next, same ▸ left, by omega, atHand,
    length_splice fits_part⟩
  rw [readFor, if_neg (by omega), started, Progress.bind]
  rw [if_neg (by omega), copy_of_overwrite stored, Progress.bind, taken]

theorem readFor_closed (wellFormed : reader.WellFormed) (short : reader.remaining.length < n)
    (fits : pos + n ≤ v.length) (fuel : Nat) : readFor .closed fuel reader n pos v = .running := by
  induction fuel generalizing reader n pos v with
  | zero => rfl
  | succ fuel ih =>
    by_cases empty : reader.remaining = []
    · -- The read of no bytes leaves everything as it was.
      obtain ⟨consumed, stream⟩ := wellFormed.at_end empty
      have stays : FrameReader.WellFormed { reader with offset := 0, bound := 0 } :=
        ⟨Nat.le_refl 0, Nat.zero_le _, wellFormed.reads⟩
      have nothing : FrameReader.remaining { reader with offset := 0, bound := 0 } = [] := by
        simp [remaining, stream]
      have unread : reader.read .closed = .returned { reader with offset := 0, bound := 0 } := by
        simp [read, stream]
      have stored : overwrite v pos [] 0 = some v := by simp [overwrite, show pos ≤ v.length by omega]
      have wanted : n ≠ 0 := by omega
      rw [readFor, if_neg wanted, if_pos consumed, unread, Progress.bind]
      dsimp only
      rw [if_neg (by omega), copy_of_overwrite (by simpa using stored)]
      exact ih stays (by rw [nothing]; exact Nat.pos_of_ne_zero wanted) fits
    · obtain ⟨_, _, _, continues, wellFormed_next, left, -, _, _⟩ := wellFormed.readFor_part empty short fits
      rw [continues]
      refine ih wellFormed_next ?_ (by omega)
      rw [left, length_drop]
      omega

/-!
## Calls
-/

def Returns {Result : Type} (call : Nat → Progress Result) : Prop := ∃ fuel result, call fuel = .returned result

def Loops {Result : Type} (call : Nat → Progress Result) : Prop := ∀ fuel, call fuel = .running

theorem Loops.not_returns {Result : Type} {call : Nat → Progress Result} (loops : Loops call) : ¬ Returns call := by
  rintro ⟨fuel, _, returned⟩
  rw [loops fuel] at returned
  cases returned

/-- The next frame is there in full, with the size that it announces. -/
def FrameAvailable (reader : FrameReader) : Prop :=
  4 + fromBeBytes (reader.remaining.take 4) ≤ reader.remaining.length

instance (reader : FrameReader) : Decidable (FrameAvailable reader) := inferInstanceAs (Decidable (_ ≤ _))

theorem readNextBytes_returns (wellFormed : reader.WellFormed) (available : n ≤ reader.remaining.length)
    (fits : n ≤ v.length) : Returns fun fuel => readNextBytesFor .closed fuel reader n v := by
  obtain ⟨_, enough, -, -, returns, -⟩ := readNextBytesFor_spec .closed wellFormed available fits
  exact ⟨enough, _, returns enough (Nat.le_refl _)⟩

theorem readNextBytes_loops (wellFormed : reader.WellFormed) (missing : reader.remaining.length < n)
    (fits : n ≤ v.length) : Loops fun fuel => readNextBytesFor .closed fuel reader n v :=
  readFor_closed wellFormed missing (by omega)

theorem length_grown (buff : Bytes) (sz : Nat) :
    sz ≤ (if sz > buff.length then buff ++ List.replicate (sz - buff.length) 0 else buff).length := by
  split
  · rw [length_append, length_replicate]
    omega
  · omega

theorem getNextFrameFor_sized (wellFormed : reader.WellFormed) (sized : 4 ≤ reader.remaining.length) (buff : Bytes) :
    ∃ body grown enough, body.WellFormed ∧ body.remaining = reader.remaining.drop 4 ∧
      fromBeBytes (reader.remaining.take 4) ≤ grown.length ∧
      ∀ fuel, getNextFrameFor .closed fuel reader buff = .running ∧ fuel < enough ∨
        getNextFrameFor .closed fuel reader buff =
          (readNextBytesFor .closed fuel body (fromBeBytes (reader.remaining.take 4)) grown).bind fun rest =>
            .returned (fromBeBytes (reader.remaining.take 4), rest.1, rest.2) := by
  obtain ⟨body, enough, wellFormed_body, left, returns, either⟩ := readNextBytesFor_spec .closed
    (v := List.replicate 4 0) wellFormed sized (by simp)
  have szVec : reader.remaining.take 4 ++ (List.replicate 4 (0 : UInt8)).drop 4 = reader.remaining.take 4 := by simp
  rw [szVec] at returns either
  refine ⟨body, _, enough, wellFormed_body, left, length_grown buff _, fun fuel => ?_⟩
  rcases Nat.lt_or_ge fuel enough with early | late
  · rcases either fuel with running | returned
    · left
      rw [getNextFrameFor, running]
      exact ⟨rfl, early⟩
    · right
      rw [getNextFrameFor, returned]
      rfl
  · right
    rw [getNextFrameFor, returns fuel late]
    rfl

theorem getNextFrame_returns (wellFormed : reader.WellFormed) (available : FrameAvailable reader) (buff : Bytes) :
    Returns fun fuel => getNextFrameFor .closed fuel reader buff := by
  unfold FrameAvailable at available
  obtain ⟨body, _, enough, wellFormed_body, left, fits, either⟩ := getNextFrameFor_sized wellFormed (by omega) buff
  have inside : fromBeBytes (reader.remaining.take 4) ≤ body.remaining.length := by
    rw [left, length_drop]
    omega
  obtain ⟨_, later, -, -, returns, -⟩ := readNextBytesFor_spec .closed wellFormed_body inside fits
  have arrived := (either (max enough later)).resolve_left (by omega)
  rw [returns _ (Nat.le_max_right _ _)] at arrived
  exact ⟨max enough later, _, arrived⟩

theorem getNextFrame_loops (wellFormed : reader.WellFormed) (missing : ¬ FrameAvailable reader) (buff : Bytes) :
    Loops fun fuel => getNextFrameFor .closed fuel reader buff := by
  intro fuel
  unfold FrameAvailable at missing
  by_cases sized : 4 ≤ reader.remaining.length
  · obtain ⟨body, grown, _, wellFormed_body, left, fits, either⟩ := getNextFrameFor_sized wellFormed sized buff
    have short : body.remaining.length < fromBeBytes (reader.remaining.take 4) := by
      rw [left, length_drop]
      omega
    rcases either fuel with ⟨running, -⟩ | waits
    · exact running
    · have running : readNextBytesFor .closed fuel body _ grown = .running :=
        readNextBytes_loops wellFormed_body short fits fuel
      rw [running] at waits
      exact waits
  · have running := readNextBytes_loops (v := List.replicate 4 0) wellFormed (Nat.lt_of_not_le sized) (by simp) fuel
    exact congrArg (Progress.bind · _) running

/-- Once the peer has closed, a call returns exactly when its bytes are there in full, and
never with an error; otherwise it reads for ever. The client's half is read alike. -/
theorem reading_ends_iff (wellFormed : reader.WellFormed) (fits : n ≤ v.length) (buff : Bytes) :
    ((Returns fun fuel => readNextBytesFor .closed fuel reader n v) ↔ n ≤ reader.remaining.length) ∧
      (reader.remaining.length < n → Loops fun fuel => readNextBytesFor .closed fuel reader n v) ∧
      ((Returns fun fuel => getNextFrameFor .closed fuel reader buff) ↔ FrameAvailable reader) ∧
      (¬ FrameAvailable reader → Loops fun fuel => getNextFrameFor .closed fuel reader buff) := by
  refine ⟨⟨fun returns => ?_, fun available => readNextBytes_returns wellFormed available fits⟩,
    fun missing => readNextBytes_loops wellFormed missing fits,
    ⟨fun returns => ?_, fun available => getNextFrame_returns wellFormed available buff⟩,
    fun missing => getNextFrame_loops wellFormed missing buff⟩
  · by_contra missing
    exact (readNextBytes_loops wellFormed (Nat.lt_of_not_le missing) fits).not_returns returns
  · by_contra missing
    exact (getNextFrame_loops wellFormed missing buff).not_returns returns

theorem wellFormed_unread {buffer stream} (reads : ∀ read ∈ stream, 0 < read.length ∧ read.length ≤ buffer.length) :
    WellFormed ⟨buffer, stream, 0, 0⟩ :=
  ⟨Nat.le_refl 0, Nat.zero_le _, reads⟩

theorem frame_then_close :
    (Returns fun fuel => readNextBytesFor .closed fuel (.new [[0, 0], [0, 1, 7]]) 3 [0, 0, 0]) ∧
      Returns fun fuel => getNextFrameFor .closed fuel (.new [[0, 0], [0, 1, 7]]) [] := by
  have wellFormed : WellFormed (.new [[0, 0], [0, 1, 7]]) :=
    wellFormed_unread (by simp only [length_replicate]; decide)
  obtain ⟨bytes, -, framed, -⟩ := reading_ends_iff (n := 3) (v := [0, 0, 0]) wellFormed (by decide) []
  exact ⟨bytes.mpr (by decide), framed.mpr (by decide)⟩

/-- The peer closes after two bytes of a size: neither the server nor the client returns. -/
theorem closed_within_size :
    (Loops fun fuel => getNextFrameFor .closed fuel (.new [[0, 0]]) []) ∧
      Loops fun fuel => getNextFrameFor .closed fuel (BufferedTlsStream.new [[0, 0]]).reader [] := by
  have server : WellFormed ⟨List.replicate 65536 0, [[0, 0]], 0, 0⟩ :=
    wellFormed_unread (by simp only [length_replicate]; decide)
  have client : WellFormed ⟨List.replicate 8192 0, [[0, 0]], 0, 0⟩ :=
    wellFormed_unread (by simp only [length_replicate]; decide)
  exact ⟨getNextFrame_loops server (by decide) [], getNextFrame_loops client (by decide) []⟩

end FrameReader

end PirateShip
