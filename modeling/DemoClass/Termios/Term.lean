import DemoClass.Lib.Masks
import Mathlib.Data.Int.Notation
import Mathlib.Logic.Function.Basic

/-!
# Setting up a serial line (`term.c`)

`term_set_attr` reads the settings of the device, changes them with masks, and installs
them.  Three things go wrong in it.  The label after the two cases of `data_bit` is
spelled `defalut`, so an unsupported size falls through to the rest of the function.  Odd
parity keeps only its own two bits of `c_cflag` where it should set them.  And the bits
that are cleared at the end are, but for `CRTSCTS`, bits of `c_lflag`: in `c_cflag` they
belong to the size and to the speed.

`cflagMask` is what the function does to `c_cflag` as a whole, and `configures_iff` says when
this is what was asked for.
-/

namespace DemoClass

namespace Term

/-! ### `<termios.h>` -/

def ISIG : BitVec 32 := 0x1
def ICANON : BitVec 32 := 0x2
def ECHO : BitVec 32 := 0x8
def ECHOE : BitVec 32 := 0x10
def CSIZE : BitVec 32 := 0x30
def CS7 : BitVec 32 := 0x20
def CS8 : BitVec 32 := 0x30
def CSTOPB : BitVec 32 := 0x40
def PARENB : BitVec 32 := 0x100
def PARODD : BitVec 32 := 0x200
def CBAUD : BitVec 32 := 0x100f
def CRTSCTS : BitVec 32 := 0x80000000
def INPCK : BitVec 32 := 0x10
def IXON : BitVec 32 := 0x400
def IXANY : BitVec 32 := 0x800
def IXOFF : BitVec 32 := 0x1000
def OPOST : BitVec 32 := 0x1
def VTIME : ℕ := 5
def VMIN : ℕ := 6

/-- `struct termios` -/
structure Termios where
  c_iflag : BitVec 32
  c_oflag : BitVec 32
  c_cflag : BitVec 32
  c_lflag : BitVec 32
  c_cc : ℕ → BitVec 8

/-- `struct term_t`, with the settings the device `fd_dev` has. -/
structure TermT where
  dev : Termios
  set : Termios

/-- How a call ends: with a return value, with the process, or with an access outside an
array. -/
inductive Outcome where
  | returned (r : ℤ) (info : TermT)
  | exited
  | outOfBounds

/-! ### `term_set_speed` -/

/-- `speed_arr`: `B230400`, `B115200`, `B57600`, `B38400`, `B19200`, `B9600`, `B4800` -/
def speedArr : List (BitVec 32) := [0x1003, 0x1002, 0x1001, 0xf, 0xe, 0xd, 0xc]

/-- `name_arr` -/
def nameArr : List ℤ := [230400, 115200, 57600, 38400, 19200, 9600, 4800]

/-- `cfsetispeed` and `cfsetospeed` -/
def cfsetspeed (set : Termios) (speed : BitVec 32) : Termios :=
  { set with c_cflag := (set.c_cflag &&& ~~~CBAUD) ||| speed }

/-- `term_set_speed`, when `tcgetattr` succeeds and `tcsetattr` returns `setattr`.  A speed
that is not in the table is printed before it is refused, from behind the end of
`name_arr`. -/
def termSetSpeed (setattr : ℤ) (info : TermT) (speed : ℤ) : Outcome :=
  match speedArr[nameArr.findIdx (fun name => speed = name)]? with
  | none => .outOfBounds
  | some code =>
    let set := cfsetspeed (cfsetspeed info.dev code) code
    if setattr ≠ 0 then .returned (-1) ⟨info.dev, set⟩ else .returned 0 ⟨set, set⟩

/-! ### `term_set_attr` -/

/-- The `switch` on `data_bit`, which no other value leaves through a label. -/
def switchDataBit (data_bit : ℤ) (set : Termios) : Termios :=
  if data_bit = 7 then { set with c_cflag := set.c_cflag ||| CS7 }
  else if data_bit = 8 then { set with c_cflag := set.c_cflag ||| CS8 }
  else set

/-- The `switch` on `stop_bit`; another value ends the process. -/
def switchStopBit (stop_bit : ℤ) (set : Termios) : Option Termios :=
  if stop_bit = 1 then some { set with c_cflag := set.c_cflag &&& ~~~CSTOPB }
  else if stop_bit = 2 then some { set with c_cflag := set.c_cflag ||| CSTOPB }
  else none

def IsNone (parity : ℤ) : Prop := parity = 'n'.toNat ∨ parity = 'N'.toNat

def IsOdd (parity : ℤ) : Prop := parity = 'o'.toNat ∨ parity = 'O'.toNat

def IsEven (parity : ℤ) : Prop := parity = 'e'.toNat ∨ parity = 'E'.toNat

instance (parity : ℤ) : Decidable (IsNone parity) := inferInstanceAs (Decidable (_ ∨ _))

instance (parity : ℤ) : Decidable (IsOdd parity) := inferInstanceAs (Decidable (_ ∨ _))

instance (parity : ℤ) : Decidable (IsEven parity) := inferInstanceAs (Decidable (_ ∨ _))

/-- The `switch` on `parity`; another value is an error. -/
def switchParity (parity : ℤ) (set : Termios) : Option Termios :=
  if IsNone parity then
    some { set with c_cflag := set.c_cflag &&& ~~~PARENB, c_iflag := set.c_iflag &&& ~~~INPCK }
  else if IsOdd parity then
    some { set with
      c_cflag := set.c_cflag &&& (PARODD ||| PARENB), c_iflag := set.c_iflag ||| INPCK }
  else if IsEven parity then
    some { set with
      c_cflag := (set.c_cflag &&& ~~~PARODD) ||| PARENB, c_iflag := set.c_iflag ||| INPCK }
  else none

/-- The settings that do not depend on the arguments. -/
def setRaw (set : Termios) : Termios where
  c_iflag := set.c_iflag &&& ~~~(IXON ||| IXOFF ||| IXANY)
  c_cflag := set.c_cflag &&& ~~~(ICANON ||| ECHO ||| ECHOE ||| ISIG ||| CRTSCTS)
  c_oflag := set.c_oflag &&& ~~~OPOST
  c_lflag := set.c_lflag
  c_cc := Function.update (Function.update set.c_cc VTIME 150) VMIN 0

/-- `term_set_attr`, when `tcgetattr` returns `getattr` and `tcsetattr` returns
`setattr`. -/
def termSetAttr (getattr setattr : ℤ) (info : TermT) (data_bit stop_bit parity : ℤ) : Outcome :=
  if getattr ≠ 0 then .returned (-1) info
  else
    let set := { info.dev with c_cflag := info.dev.c_cflag &&& ~~~CSIZE }
    let set := switchDataBit data_bit set
    match switchStopBit stop_bit set with
    | none => .exited
    | some set =>
      match switchParity parity set with
      | none => .returned (-1) ⟨info.dev, set⟩
      | some set =>
        let set := setRaw set
        if setattr ≠ 0 then .returned (-1) ⟨info.dev, set⟩
        else .returned 0 ⟨set, set⟩

/-! ### What was asked for -/

/-- The arguments `term_set_attr` is made for. -/
structure Supported (data_bit stop_bit parity : ℤ) : Prop where
  data_bit : data_bit = 7 ∨ data_bit = 8
  stop_bit : stop_bit = 1 ∨ stop_bit = 2
  parity : IsNone parity ∨ IsOdd parity ∨ IsEven parity

/-- The fields of `new` are those the arguments ask for, and the speed is that of `old`. -/
structure Requested (data_bit stop_bit parity : ℤ) (old new : BitVec 32) : Prop where
  csize : new &&& CSIZE = if data_bit = 7 then CS7 else CS8
  cstopb : new &&& CSTOPB = if stop_bit = 2 then CSTOPB else 0
  none : IsNone parity → new &&& PARENB = 0
  odd : IsOdd parity → new &&& (PARENB ||| PARODD) = PARENB ||| PARODD
  even : IsEven parity → new &&& (PARENB ||| PARODD) = PARENB
  cbaud : new &&& CBAUD = old &&& CBAUD

/-! ### The masks of `c_cflag` -/

def dataBitMask (data_bit : ℤ) : Mask 32 :=
  if data_bit = 7 then Mask.put CS7 else if data_bit = 8 then Mask.put CS8 else Mask.skip

def stopBitMask (stop_bit : ℤ) : Mask 32 :=
  if stop_bit = 1 then Mask.clear CSTOPB else Mask.put CSTOPB

def parityMask (parity : ℤ) : Mask 32 :=
  if IsNone parity then Mask.clear PARENB
  else if IsOdd parity then Mask.only (PARODD ||| PARENB)
  else (Mask.clear PARODD).andThen (Mask.put PARENB)

/-- What `term_set_attr` does to `c_cflag`. -/
def cflagMask (data_bit stop_bit parity : ℤ) : Mask 32 :=
  ((((Mask.clear CSIZE).andThen (dataBitMask data_bit)).andThen (stopBitMask stop_bit)).andThen
    (parityMask parity)).andThen (Mask.clear (ICANON ||| ECHO ||| ECHOE ||| ISIG ||| CRTSCTS))

variable {data_bit stop_bit parity : ℤ} {set set' : Termios} {info : TermT}

lemma switchDataBit_cflag (data_bit : ℤ) (set : Termios) :
    (switchDataBit data_bit set).c_cflag = (dataBitMask data_bit).apply set.c_cflag := by
  unfold switchDataBit dataBitMask
  split_ifs <;> simp

lemma switchStopBit_eq_none_iff : switchStopBit stop_bit set = none ↔
    ¬ (stop_bit = 1 ∨ stop_bit = 2) := by
  unfold switchStopBit
  split_ifs <;> simp_all

lemma switchStopBit_cflag (h : switchStopBit stop_bit set = some set') :
    set'.c_cflag = (stopBitMask stop_bit).apply set.c_cflag := by
  unfold switchStopBit at h
  unfold stopBitMask
  split_ifs at h ⊢ <;> simp_all [← Option.some.inj h]

lemma switchParity_eq_none_iff : switchParity parity set = none ↔
    ¬ (IsNone parity ∨ IsOdd parity ∨ IsEven parity) := by
  unfold switchParity
  split_ifs <;> simp_all

lemma switchParity_cflag (h : switchParity parity set = some set') :
    set'.c_cflag = (parityMask parity).apply set.c_cflag := by
  unfold switchParity at h
  unfold parityMask
  split_ifs at h ⊢ <;> simp_all [← Option.some.inj h, Mask.apply_andThen]

/-- With system calls that succeed, the function fails for `stop_bit` and `parity` only. -/
lemma termSetAttr_of_not (h : ¬ ((stop_bit = 1 ∨ stop_bit = 2) ∧
    (IsNone parity ∨ IsOdd parity ∨ IsEven parity))) (info' : TermT) :
    termSetAttr 0 0 info data_bit stop_bit parity ≠ .returned 0 info' := by
  unfold termSetAttr
  rw [if_neg (by simp)]
  dsimp only
  split
  · simp
  · next hstop =>
    split
    · simp
    · next hparity =>
      refine absurd ⟨?_, ?_⟩ h
      · by_contra hn
        rw [switchStopBit_eq_none_iff.2 hn] at hstop
        cases hstop
      · by_contra hn
        rw [switchParity_eq_none_iff.2 hn] at hparity
        cases hparity

/-- Whatever `data_bit` is, the masks of the arguments are applied. -/
lemma termSetAttr_of (hstop : stop_bit = 1 ∨ stop_bit = 2)
    (hparity : IsNone parity ∨ IsOdd parity ∨ IsEven parity) (info : TermT) (data_bit : ℤ) :
    ∃ info', termSetAttr 0 0 info data_bit stop_bit parity = .returned 0 info' ∧
      info'.dev.c_cflag = (cflagMask data_bit stop_bit parity).apply info.dev.c_cflag := by
  obtain ⟨set₁, h₁⟩ : ∃ set, { info.dev with c_cflag := info.dev.c_cflag &&& ~~~CSIZE } = set :=
    ⟨_, rfl⟩
  rcases hs₂ : switchStopBit stop_bit (switchDataBit data_bit set₁) with _ | set₂
  · exact absurd hstop (switchStopBit_eq_none_iff.1 hs₂)
  rcases hs₃ : switchParity parity set₂ with _ | set₃
  · exact absurd hparity (switchParity_eq_none_iff.1 hs₃)
  refine ⟨⟨setRaw set₃, setRaw set₃⟩, ?_, ?_⟩
  · simp [termSetAttr, h₁, hs₂, hs₃]
  · show set₃.c_cflag &&& ~~~_ = _
    simp only [cflagMask, Mask.apply_andThen]
    rw [switchParity_cflag hs₃, switchStopBit_cflag hs₂, switchDataBit_cflag, ← h₁]
    simp

/-! ### The fields -/

lemma not_isOdd_of_isNone (h : IsNone parity) : ¬ IsOdd parity := by
  rcases h with rfl | rfl <;> decide

lemma not_isEven_of_isNone (h : IsNone parity) : ¬ IsEven parity := by
  rcases h with rfl | rfl <;> decide

lemma not_isOdd_of_isEven (h : IsEven parity) : ¬ IsOdd parity := by
  rcases h with rfl | rfl <;> decide

section

variable (data_bit stop_bit : ℤ) (x : BitVec 32)

/-- The size that is installed: `CS8` loses the bit of `ECHOE`. -/
lemma cflagMask_csize (h : ¬ IsOdd parity) :
    (cflagMask data_bit stop_bit parity).apply x &&& CSIZE =
      if data_bit = 7 ∨ data_bit = 8 then CS7 else 0 := by
  unfold cflagMask dataBitMask stopBitMask parityMask
  rw [if_neg h, Mask.apply_and_eq]
  · split_ifs <;> first | decide | (exfalso; tauto)
  · split_ifs <;> decide

/-- Odd parity clears the size. -/
lemma cflagMask_csize_of_isOdd (h : IsOdd parity) :
    (cflagMask data_bit stop_bit parity).apply x &&& CSIZE = 0 := by
  have hn : ¬ IsNone parity := fun hn => not_isOdd_of_isNone hn h
  unfold cflagMask dataBitMask stopBitMask parityMask
  rw [if_neg hn, if_pos h, Mask.apply_and_eq]
  · split_ifs <;> decide
  · split_ifs <;> decide

lemma cflagMask_cstopb (h : ¬ IsOdd parity) :
    (cflagMask data_bit stop_bit parity).apply x &&& CSTOPB =
      if stop_bit = 1 then 0 else CSTOPB := by
  unfold cflagMask dataBitMask stopBitMask parityMask
  rw [if_neg h, Mask.apply_and_eq]
  · split_ifs <;> decide
  · split_ifs <;> decide

lemma cflagMask_parenb (h : IsNone parity) :
    (cflagMask data_bit stop_bit parity).apply x &&& PARENB = 0 := by
  unfold cflagMask dataBitMask stopBitMask parityMask
  rw [if_pos h, Mask.apply_and_eq]
  · split_ifs <;> decide
  · split_ifs <;> decide

lemma cflagMask_parodd (h : IsEven parity) :
    (cflagMask data_bit stop_bit parity).apply x &&& (PARENB ||| PARODD) = PARENB := by
  have hn : ¬ IsNone parity := fun hn => not_isEven_of_isNone hn h
  unfold cflagMask dataBitMask stopBitMask parityMask
  rw [if_neg hn, if_neg (not_isOdd_of_isEven h), Mask.apply_and_eq]
  · split_ifs <;> decide
  · split_ifs <;> decide

/-- The speed that is installed: the bits of `ISIG`, `ICANON` and `ECHO` are lost. -/
lemma cflagMask_cbaud_iff (h : ¬ IsOdd parity) :
    (cflagMask data_bit stop_bit parity).apply x &&& CBAUD = x &&& CBAUD ↔
      x &&& (ISIG ||| ICANON ||| ECHO) = 0 := by
  have hlost : CBAUD &&& ~~~(cflagMask data_bit stop_bit parity).keep =
      ISIG ||| ICANON ||| ECHO := by
    unfold cflagMask dataBitMask stopBitMask parityMask
    rw [if_neg h]
    split_ifs <;> decide
  rw [Mask.apply_and_eq_iff, hlost]
  unfold cflagMask dataBitMask stopBitMask parityMask
  rw [if_neg h]
  split_ifs <;> decide

end

/-! ### When the line is what was asked for -/

/-- With system calls that succeed, `term_set_attr` returns `0` for the arguments it is made
for and for no others, and the fields it installs are those asked for. -/
structure Configures (info : TermT) (data_bit stop_bit parity : ℤ) : Prop where
  returns_iff : (∃ info', termSetAttr 0 0 info data_bit stop_bit parity = .returned 0 info') ↔
    Supported data_bit stop_bit parity
  requested : ∀ info', termSetAttr 0 0 info data_bit stop_bit parity = .returned 0 info' →
    Requested data_bit stop_bit parity info.dev.c_cflag info'.dev.c_cflag

lemma requested_iff (h : Supported data_bit stop_bit parity) (x : BitVec 32) :
    Requested data_bit stop_bit parity x ((cflagMask data_bit stop_bit parity).apply x) ↔
      data_bit = 7 ∧ ¬ IsOdd parity ∧ x &&& (ISIG ||| ICANON ||| ECHO) = 0 := by
  obtain ⟨hdata, hstop, hparity⟩ := h
  by_cases hodd : IsOdd parity
  · -- odd parity leaves no size
    have hsize := cflagMask_csize_of_isOdd data_bit stop_bit x hodd
    constructor
    · intro hreq
      have hne : (if data_bit = 7 then CS7 else CS8) ≠ 0 := by split_ifs <;> decide
      exact absurd (hreq.csize.symm.trans hsize) hne
    · rintro ⟨-, hn, -⟩
      exact absurd hodd hn
  · have hsize := cflagMask_csize data_bit stop_bit x hodd
    rw [if_pos hdata] at hsize
    constructor
    · intro hreq
      refine ⟨?_, hodd, (cflagMask_cbaud_iff data_bit stop_bit x hodd).1 hreq.cbaud⟩
      by_contra hne
      have hcs : CS7 = CS8 := by
        rw [← hsize, hreq.csize, if_neg hne]
      exact absurd hcs (by decide)
    · rintro ⟨rfl, -, hlost⟩
      refine ⟨?_, ?_, ?_, fun h => absurd h hodd, ?_, ?_⟩
      · rw [hsize, if_pos rfl]
      · rw [cflagMask_cstopb _ _ _ hodd]
        rcases hstop with rfl | rfl <;> decide
      · exact cflagMask_parenb _ _ x
      · exact cflagMask_parodd _ _ x
      · exact (cflagMask_cbaud_iff _ _ x hodd).2 hlost

/-- Arguments with which the call succeeds are configured under the condition of
`requested_iff`. -/
lemma configures_iff_of_succeeds (hstop : stop_bit = 1 ∨ stop_bit = 2)
    (hparity : IsNone parity ∨ IsOdd parity ∨ IsEven parity) :
    Configures info data_bit stop_bit parity ↔
      data_bit = 7 ∧ ¬ IsOdd parity ∧ info.dev.c_cflag &&& (ISIG ||| ICANON ||| ECHO) = 0 := by
  obtain ⟨info', hret, hflag⟩ := termSetAttr_of hstop hparity info data_bit
  constructor
  · rintro ⟨hiff, hreq⟩
    have hsup := hiff.1 ⟨info', hret⟩
    refine (requested_iff hsup info.dev.c_cflag).1 ?_
    rw [← hflag]
    exact hreq info' hret
  · intro h
    have hsup : Supported data_bit stop_bit parity := ⟨Or.inl h.1, hstop, hparity⟩
    refine ⟨⟨fun _ => hsup, fun _ => ⟨info', hret⟩⟩, fun info'' hret' => ?_⟩
    obtain rfl : info' = info'' := by simpa using hret.symm.trans hret'
    rw [hflag]
    exact (requested_iff hsup info.dev.c_cflag).2 h

/-- The line is configured as asked for in two cases: the call fails, on account of
`stop_bit` or `parity`; or seven bits without odd parity are asked for, at a speed without
the bits that are lost. -/
theorem configures_iff (info : TermT) (data_bit stop_bit parity : ℤ) :
    Configures info data_bit stop_bit parity ↔
      ¬ (stop_bit = 1 ∨ stop_bit = 2) ∨ ¬ (IsNone parity ∨ IsOdd parity ∨ IsEven parity) ∨
        data_bit = 7 ∧ ¬ IsOdd parity ∧
          info.dev.c_cflag &&& (ISIG ||| ICANON ||| ECHO) = 0 := by
  by_cases hvalid : (stop_bit = 1 ∨ stop_bit = 2) ∧ (IsNone parity ∨ IsOdd parity ∨ IsEven parity)
  · rw [configures_iff_of_succeeds hvalid.1 hvalid.2]
    tauto
  · have hnot : ∀ info', termSetAttr 0 0 info data_bit stop_bit parity ≠ .returned 0 info' :=
      termSetAttr_of_not hvalid
    have hright : Configures info data_bit stop_bit parity := by
      refine ⟨⟨?_, fun hsup => absurd ⟨hsup.stop_bit, hsup.parity⟩ hvalid⟩, ?_⟩
      · rintro ⟨info', hret⟩
        exact absurd hret (hnot info')
      · exact fun info' hret => absurd hret (hnot info')
    tauto

/-- Eight bits, one stop bit and no parity, on a line at 9600. -/
theorem not_configures_8N1 :
    ¬ Configures ⟨⟨0, 0, 0xd, 0, fun _ => 0⟩, ⟨0, 0, 0, 0, fun _ => 0⟩⟩ 8 1 'n'.toNat := by
  have hnone : IsNone 'n'.toNat := Or.inl rfl
  rw [configures_iff_of_succeeds (Or.inl rfl) (Or.inl hnone)]
  rintro ⟨hdata, -⟩
  exact absurd hdata (by decide)

/-! ### The speeds of the table -/

/-- Every speed that `term_set_speed` can set has a bit that `term_set_attr` clears. -/
lemma speedArr_lost : ∀ code ∈ speedArr, code &&& (ISIG ||| ICANON ||| ECHO) ≠ 0 := by
  simp [speedArr, ISIG, ICANON, ECHO]

/-- A call of `term_set_attr` that succeeds on a line whose speed was set before never
leaves what was asked for. -/
theorem termSetSpeed_not_configures {speed : ℤ} {info' : TermT}
    (h : termSetSpeed 0 info speed = .returned 0 info') (hstop : stop_bit = 1 ∨ stop_bit = 2)
    (hparity : IsNone parity ∨ IsOdd parity ∨ IsEven parity) :
    ¬ Configures info' data_bit stop_bit parity := by
  rw [configures_iff_of_succeeds hstop hparity]
  rintro ⟨-, -, hlost⟩
  unfold termSetSpeed at h
  split at h
  · cases h
  · next code hcode =>
    rw [if_neg (by simp)] at h
    obtain rfl := (Outcome.returned.injEq _ _ _ _ ▸ h).2
    have hmem : code ∈ speedArr := List.mem_of_getElem? hcode
    have hkeep : ~~~CBAUD &&& (ISIG ||| ICANON ||| ECHO) = 0 := by decide
    have hfield := Mask.apply_and_eq (m := ⟨~~~CBAUD, code⟩) hkeep
      (cfsetspeed info.dev code).c_cflag
    exact speedArr_lost code hmem (hfield.symm.trans hlost)

end Term

end DemoClass
