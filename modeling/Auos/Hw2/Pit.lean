import Auos.Kernel
import Auos.Lib.Pit

/-!
# The interval timer of `hw2` and `hw3`

`pit.c` of `hw2`; the functions up to `pit_set_rate` are those of `time.c` of `hw3` too. `pit_data_port`
has three cases and one answer: for every channel it is the data port of channel 0. So a rate for
another channel stops that channel, and the count goes to channel 0.

`pit_get_reload` multiplies with 32 bits, and `pit_set_rate` takes 16 bits of the quotient.

## Main definitions

* `pitSetRate`, `pitGetReload`, `pitSetChannel0Rate` — the source
* `pitRun` — calls of `pit_set_rate`, one after the other
* `lastReload` — what was asked for a channel last

## Main results

* `pitRun_eq` — channel 0 has the rate that was asked last for any channel
* `pitRun_asked_iff` — every channel has the rate that was asked last for it iff only channel 0 was
* `pitSetChannel0Rate_period_iff` — the times that are programmed right
-/

namespace Auos

namespace Hw2

/-! ### `pit.c` -/

/-- `PIT_CH0`, `PIT_CH1` and `PIT_CH2`, by their numbers. -/
def pitChannel (c : ℕ) : ℕ := if c = 0 then 0 else if c = 1 then 1 <<< 6 else 1 <<< 7

/-- `PIT_LOBYTE`. -/
abbrev pitLobyte : ℕ := 1 <<< 4

/-- `PIT_HIBYTE`. -/
abbrev pitHibyte : ℕ := 1 <<< 5

/-- `PIT_RATE`. -/
abbrev pitRate : ℕ := 1 <<< 2

/-- `pit_write_cmd`, with a byte. -/
def pitWriteCmd (p : Pit) (cmd : ℕ) : Pit := p.out 0x43 (cmd % 2 ^ 8)

/-- `pit_data_port`. -/
def pitDataPort (channel : ℕ) : ℕ :=
  if channel = pitChannel 0 then 0x40
  else if channel = pitChannel 1 then 0x40
  else if channel = pitChannel 2 then 0x40
  else 0

/-- `pit_write_reload`. -/
def pitWriteReload (p : Pit) (reload channel access : ℕ) : Pit :=
  let port := pitDataPort channel
  let p := if access &&& pitLobyte ≠ 0 then p.out port (reload &&& 0xFF) else p
  if access &&& pitHibyte ≠ 0 then p.out port ((reload >>> 8) &&& 0xFF) else p

/-- `pit_set_rate`; `reload` is an `unsigned short`. -/
def pitSetRate (p : Pit) (channel reload : ℕ) : Pit :=
  let reload := reload % 2 ^ 16
  let access := pitLobyte ||| pitHibyte
  let p := pitWriteCmd p (channel ||| access ||| pitRate)
  pitWriteReload p reload channel access

/-- `FREQ`. -/
abbrev pitFreq : ℕ := 1193182

/-- `pit_get_reload`. -/
def pitGetReload (msecs : ℕ) : ℕ := wmul msecs pitFreq / 1000

/-- `pit_set_channel0_rate`. -/
def pitSetChannel0Rate (p : Pit) (msecs : ℕ) : Pit := pitSetRate p (pitChannel 0) (pitGetReload msecs)

/-- Calls of `pit_set_rate`, with the numbers of the channels. -/
def pitRun (p : Pit) (calls : List (ℕ × ℕ)) : Pit :=
  calls.foldl (fun p call => pitSetRate p (pitChannel call.1) call.2) p

/-- The count of the last call for a channel. -/
def lastReload (calls : List (ℕ × ℕ)) (c : ℕ) : Option ℕ :=
  ((calls.filter fun call => call.1 = c).getLast?).map Prod.snd

variable {p : Pit} {c reload msecs : ℕ} {calls : List (ℕ × ℕ)}

/-! ### One call -/

/-- A counter that has been made a rate generator, with this count. -/
def rateCounter (count : Option ℕ) : PitCounter := ⟨2, 3, false, none, count⟩

theorem period_rateCounter (reload : ℕ) : (rateCounter (some reload)).period =
    if reload = 1 then none else some (if reload = 0 then 65536 else reload) := by
  rw [PitCounter.period, if_pos ⟨rfl, rfl⟩, rateCounter, Option.bind_some]

theorem period_rateCounter_of_le (h : 2 ≤ reload) :
    (rateCounter (some reload)).period = some reload := by
  rw [period_rateCounter, if_neg (by omega), if_neg (by omega)]

/-- The bytes of a count. -/
theorem low_add_high (h : reload < 2 ^ 16) :
    (reload &&& 0xFF) + 256 * ((reload >>> 8) &&& 0xFF) = reload := by
  rw [show (0xFF : ℕ) = 2 ^ 8 - 1 from rfl, Nat.and_two_pow_sub_one_eq_mod,
    Nat.and_two_pow_sub_one_eq_mod, Nat.shiftRight_eq_div_pow]
  omega

/-- The control word makes the channel a rate generator without a count. -/
theorem pitWriteCmd_rate (p : Pit) (hc : c < 3) :
    pitWriteCmd p (pitChannel c ||| (pitLobyte ||| pitHibyte) ||| pitRate) =
      Function.update p c (rateCounter none) := by
  obtain rfl | rfl | rfl : c = 0 ∨ c = 1 ∨ c = 2 := by omega
  all_goals rfl

/-- The bytes go to channel 0. -/
theorem pitWriteReload_eq (p : Pit) (hc : c < 3) :
    pitWriteReload p reload (pitChannel c) (pitLobyte ||| pitHibyte) =
      Function.update p 0 (((p 0).data (reload &&& 0xFF)).data ((reload >>> 8) &&& 0xFF)) := by
  have hport : pitDataPort (pitChannel c) = 0x40 := by
    obtain rfl | rfl | rfl : c = 0 ∨ c = 1 ∨ c = 2 := by omega
    all_goals rfl
  rw [pitWriteReload, hport, if_pos (by decide), if_pos (by decide)]
  simp only [Pit.out, show (0x40 : ℕ) ≠ 0x43 by decide, if_false, le_refl,
    show (0x40 : ℕ) < 0x43 by decide, and_self, if_true, Nat.sub_self, Function.update_self,
    Function.update_idem]

theorem pitSetRate_eq (p : Pit) (hc : c < 3) (hreload : reload < 2 ^ 16) :
    pitSetRate p (pitChannel c) reload =
      let q := Function.update p c (rateCounter none)
      Function.update q 0 (((q 0).data (reload &&& 0xFF)).data ((reload >>> 8) &&& 0xFF)) := by
  rw [pitSetRate, Nat.mod_eq_of_lt hreload]
  simp only [pitWriteCmd_rate p hc, pitWriteReload_eq _ hc]

/-- A rate for channel 0, whatever its state: it runs, and no other channel changes. -/
theorem pitSetRate_channel0 (p : Pit) (hreload : reload < 2 ^ 16) :
    pitSetRate p (pitChannel 0) reload = Function.update p 0 (rateCounter (some reload)) := by
  rw [pitSetRate_eq p (by decide) hreload]
  simp only [Function.update_self, Function.update_idem]
  rw [PitCounter.data_data rfl rfl, low_add_high hreload]
  rfl

/-- A rate for another channel, which waits for its count; channel 0, if it is a rate generator, gets
it. -/
theorem pitSetRate_other {count : Option ℕ} (hp : p 0 = rateCounter count) (hc : c < 3) (hne : c ≠ 0)
    (hreload : reload < 2 ^ 16) : pitSetRate p (pitChannel c) reload =
      Function.update (Function.update p c (rateCounter none)) 0 (rateCounter (some reload)) := by
  rw [pitSetRate_eq p hc hreload]
  simp only [Function.update_of_ne (Ne.symm hne), hp]
  rw [PitCounter.data_data rfl rfl, low_add_high hreload]
  rfl

/-- A rate for any channel, after one for channel 0. -/
theorem pitSetRate_rate {count : Option ℕ} (hp : p 0 = rateCounter count) (hc : c < 3)
    (hreload : reload < 2 ^ 16) : pitSetRate p (pitChannel c) reload =
      if c = 0 then Function.update p 0 (rateCounter (some reload))
      else Function.update (Function.update p c (rateCounter none)) 0 (rateCounter (some reload)) := by
  split_ifs with hzero
  · rw [hzero, pitSetRate_channel0 p hreload]
  · exact pitSetRate_other hp hc hzero hreload

/-! ### Many calls -/

/-- The counts of the calls, whatever their channels, end with this one. -/
def lastCount (reload : ℕ) (calls : List (ℕ × ℕ)) : ℕ := (calls.map Prod.snd).getLastD reload

/-- Channel 0 has the count of the last call, and a channel that was called for waits. -/
theorem pitRun_eq (hp : p 0 = rateCounter (some reload)) (hc : ∀ call ∈ calls, call.1 < 3)
    (hreload : ∀ call ∈ calls, call.2 < 2 ^ 16) :
    pitRun p calls 0 = rateCounter (some (lastCount reload calls)) ∧
      ∀ c, c ≠ 0 → pitRun p calls c = if ∃ call ∈ calls, call.1 = c then rateCounter none else p c := by
  induction calls generalizing p reload with
  | nil => exact ⟨hp, fun c _ => by rw [if_neg (by simp)]; rfl⟩
  | cons call calls ih =>
    obtain ⟨d, count⟩ := call
    have hd : d < 3 := hc (d, count) List.mem_cons_self
    have hcount : count < 2 ^ 16 := hreload (d, count) List.mem_cons_self
    have hrun : pitRun p ((d, count) :: calls) = pitRun (pitSetRate p (pitChannel d) count) calls := rfl
    have hlast : lastCount reload ((d, count) :: calls) = lastCount count calls :=
      List.getLastD_cons
    rw [hrun, hlast]
    have hstep := pitSetRate_rate hp hd hcount
    have hnew : pitSetRate p (pitChannel d) count 0 = rateCounter (some count) := by
      rw [hstep]
      split_ifs <;> exact Function.update_self ..
    obtain ⟨h0, hother⟩ := ih hnew (fun call h => hc call (List.mem_cons_of_mem _ h))
      fun call h => hreload call (List.mem_cons_of_mem _ h)
    refine ⟨h0, fun c hne => ?_⟩
    rw [hother c hne, hstep]
    by_cases hlater : ∃ call ∈ calls, call.1 = c
    · obtain ⟨call, hmem, heq⟩ := hlater
      rw [if_pos ⟨call, hmem, heq⟩, if_pos ⟨call, List.mem_cons_of_mem _ hmem, heq⟩]
    rw [if_neg hlater]
    by_cases hdc : d = c
    · subst hdc
      have hcalled : ∃ call ∈ (d, count) :: calls, call.1 = d := ⟨_, List.mem_cons_self, rfl⟩
      rw [if_pos hcalled, if_neg hne, Function.update_of_ne hne, Function.update_self]
    · have hnever : ¬∃ call ∈ (d, count) :: calls, call.1 = c := by
        rintro ⟨call, hmem, heq⟩
        rcases List.mem_cons.mp hmem with rfl | hmem
        · exact hdc heq
        · exact hlater ⟨call, hmem, heq⟩
      rw [if_neg hnever]
      split_ifs
      · exact Function.update_of_ne hne _ _
      · rw [Function.update_of_ne hne, Function.update_of_ne (Ne.symm hdc)]

/-- A channel that was called for was called for a last time. -/
theorem lastReload_isSome {call : ℕ × ℕ} (h : call ∈ calls) :
    ∃ count, lastReload calls call.1 = some count := by
  have hne : (calls.filter fun other => other.1 = call.1) ≠ [] :=
    List.ne_nil_of_mem (List.mem_filter.mpr ⟨h, by simp⟩)
  exact ⟨_, by rw [lastReload, List.getLast?_eq_some_getLast hne, Option.map_some]⟩

/-- **Every channel has the rate that was asked last for it exactly if only channel 0 was asked for.**
The calls come in any number and order, on any timer, the first of them for channel 0. -/
theorem pitRun_asked_iff (p : Pit) (hc : ∀ call ∈ (0, reload) :: calls, call.1 < 3)
    (hreload : ∀ call ∈ (0, reload) :: calls, 2 ≤ call.2 ∧ call.2 < 2 ^ 16) :
    (∀ c count, lastReload ((0, reload) :: calls) c = some count →
      (pitRun p ((0, reload) :: calls) c).period = some count) ↔ ∀ call ∈ calls, call.1 = 0 := by
  obtain ⟨hlow, hhigh⟩ := hreload (0, reload) List.mem_cons_self
  have hfirst : pitSetRate p (pitChannel 0) reload 0 = rateCounter (some reload) := by
    rw [pitSetRate_channel0 p hhigh, Function.update_self]
  have hrun : pitRun p ((0, reload) :: calls) = pitRun (pitSetRate p (pitChannel 0) reload) calls := rfl
  obtain ⟨h0, hother⟩ := pitRun_eq hfirst (fun call h => hc call (List.mem_cons_of_mem _ h))
    fun call h => (hreload call (List.mem_cons_of_mem _ h)).2
  rw [hrun]
  constructor
  · intro h call hmem
    by_contra hne
    obtain ⟨count, hlast⟩ := lastReload_isSome (List.mem_cons_of_mem (0, reload) hmem)
    have hperiod := h call.1 count hlast
    rw [hother call.1 hne, if_pos ⟨call, hmem, rfl⟩] at hperiod
    cases hperiod
  · intro hall c count hlast
    have hall' : ∀ call ∈ (0, reload) :: calls, call.1 = 0 := by
      rintro call hmem
      rcases List.mem_cons.mp hmem with rfl | hmem
      · rfl
      · exact hall call hmem
    obtain ⟨call, hget, rfl⟩ := Option.map_eq_some_iff.mp hlast
    have hmem := List.mem_filter.mp (List.mem_of_getLast? hget)
    obtain rfl : c = 0 := (decide_eq_true_iff.mp hmem.2).symm.trans (hall' call hmem.1)
    rw [List.filter_eq_self.mpr fun call h => decide_eq_true_iff.mpr (hall' call h)] at hget
    rw [List.getLast?_cons, Option.some.injEq] at hget
    have hcount : lastCount reload calls = call.2 := by
      rw [← hget, ← List.getLastD_eq_getLast?]
      exact @List.getLastD_map _ _ Prod.snd calls (0, reload)
    rw [h0, hcount, period_rateCounter_of_le (hreload call hmem.1).1]

theorem pitRun_asked_iff_two : (∀ c count, lastReload [(0, 11931), (2, 1193)] c = some count →
      (pitRun (fun _ => ⟨0, 0, false, none, none⟩) [(0, 11931), (2, 1193)] c).period = some count) ↔
    ∀ call ∈ [(2, 1193)], call.1 = 0 :=
  pitRun_asked_iff _ (by decide) (by decide)

/-! ### Times -/

/-- The quotient is right as long as the product has 32 bits. -/
theorem pitGetReload_eq (h : msecs * pitFreq < 2 ^ 32) : pitGetReload msecs = msecs * pitFreq / 1000 := by
  rw [pitGetReload, wmul, wrap_of_lt h]

/-- **The times that are programmed right**: whatever the timer did before, channel 0 gives a pulse
every `msecs` milliseconds, rounded down to a clock, exactly for `1` to `54` of them. -/
theorem pitSetChannel0Rate_period_iff (p : Pit) (msecs : ℕ) :
    (pitSetChannel0Rate p msecs 0).period = some (msecs * pitFreq / 1000) ↔
      1 ≤ msecs ∧ msecs ≤ 54 := by
  have hmod : pitSetChannel0Rate p msecs =
      pitSetRate p (pitChannel 0) (pitGetReload msecs % 2 ^ 16) := by
    rw [pitSetChannel0Rate, pitSetRate, pitSetRate, Nat.mod_mod]
  have hlt : pitGetReload msecs % 2 ^ 16 < 2 ^ 16 := Nat.mod_lt _ (by decide)
  rw [hmod, pitSetRate_channel0 p hlt, Function.update_self, period_rateCounter]
  generalize hreload : pitGetReload msecs = reload at hlt ⊢
  constructor
  · intro h
    unfold pitFreq at h
    split_ifs at h with hone hzero
    · -- a count of `0` stands for `65536`, which no number of milliseconds takes
      have hclocks := Option.some.inj h
      omega
    · have hclocks := Option.some.inj h
      omega
  · rintro ⟨h₁, h₂⟩
    have hproduct : msecs * pitFreq < 2 ^ 32 := by
      unfold pitFreq
      omega
    obtain rfl : reload = msecs * pitFreq / 1000 := hreload.symm.trans (pitGetReload_eq hproduct)
    unfold pitFreq
    rw [Nat.mod_eq_of_lt (by omega), if_neg (by omega), if_neg (by omega)]

end Hw2

end Auos
