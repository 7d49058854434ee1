import Endurox.BaseBase64
import Endurox.BaseTlv

/-! Transaction identifiers: how `atmi_xa_new_xid` builds one, how the parts of a branch are put into
it, and how they are read back from it by the library and by `tmrecover`. -/

namespace Endurox.XaXid

open Base Base.Tlv List Option

@[ext] structure Xid where
  formatID : Int
  gtridLength : Int
  bqualLength : Int
  data : List UInt8
  data_len : data.length = 128

namespace Xid

def zero : Xid := ⟨0, 0, 0, replicate 128 0, length_replicate⟩

def poke (x : Xid) (off : Int) (bs : List UInt8) : Option Xid :=
  if h : 0 ≤ off ∧ off+bs.length ≤ 128 then
    some {x with
      data := x.data.take off.toNat ++ bs ++ x.data.drop (off.toNat+bs.length)
      data_len := by
        have := x.data_len
        simp only [length_append, length_take, length_drop]
        omega}
  else none

def peek (x : Xid) (off : Int) (n : ℕ) : Option (List UInt8) :=
  if 0 ≤ off ∧ off+n ≤ 128 then some ((x.data.drop off.toNat).take n) else none

end Xid

def ndrxXidFormatId : Int := 0x6194f7a1

def tridLen : ℕ := 16
def bqualLen : ℕ := 5

def hton (n : ℕ) (x : Int) : List UInt8 := beBytes n (x % 256^n).toNat
def ntoh (bs : List UInt8) : Int := wrap (256^bs.length/2) (beNat bs)

def freshXid : Xid := {Xid.zero with formatID := ndrxXidFormatId, gtridLength := 64, bqualLength := 64}

def atmiXaNewXid (uuid : List UInt8) (rmid : UInt8) (vnodeid srvId : Int) : Option Xid :=
  (freshXid.poke 0 uuid).bind (fun xid =>
    (xid.poke tridLen [rmid]).bind (fun xid =>
      (xid.poke (tridLen+1) (hton 2 vnodeid)).bind (fun xid =>
        (xid.poke (tridLen+1+2) (hton 2 srvId)).bind (fun xid =>
          xid.poke 64 (xid.data.take 64)))))

def encodingTableXa : List UInt8 :=
  [65, 66, 67, 68, 69, 70, 71, 72, 73, 74, 75, 76, 77, 78, 79, 80, 81, 82, 83, 84, 85, 86, 87, 88, 89, 90,
   97, 98, 99, 100, 101, 102, 103, 104, 105, 106, 107, 108, 109, 110, 111, 112, 113, 114, 115, 116, 117,
   118, 119, 120, 121, 122, 48, 49, 50, 51, 52, 53, 54, 55, 56, 57, 43, 95]

/-- `M_decoding_table_xa`: the place in the other table, zero for a byte that is not in it. -/
def decodingTableXa (c : UInt8) : ℕ :=
  if c ∈ encodingTableXa then encodingTableXa.idxOf c else 0

def ndrxXaBase64Encode (bs : List UInt8) : List UInt8 :=
  Base64.encode (fun i => encodingTableXa.getD i 0) bs

/-- `ndrx_xa_base64_decode` into a place of `room` bytes; 0 stands for one that is not checked. -/
def ndrxXaBase64Decode (room : ℕ) (s : List UInt8) : Option (List UInt8) :=
  Base64.decode decodingTableXa room s

def serialBytes (xid : Xid) : List UInt8 :=
  hton 4 xid.formatID ++ [UInt8.ofNat (xid.gtridLength % 256).toNat, UInt8.ofNat (xid.bqualLength % 256).toNat] ++
    xid.data.take tridLen ++ (xid.data.drop tridLen).take bqualLen

def atmiXaSerializeXid (xid : Xid) : List UInt8 := ndrxXaBase64Encode (serialBytes xid)

def readLengths (tmp : List UInt8) : Xid :=
  {Xid.zero with
    formatID := beNat (tmp.take 4)
    gtridLength := (tmp.getD 4 0).toNat
    bqualLength := (tmp.getD 5 0).toNat}

/-- `atmi_xa_deserialize_xid` of a text that was serialised: `tmp` has 192 bytes, and 27 of them
are read. -/
def atmiXaDeserializeXid (xidStr : List UInt8) : Option Xid :=
  match ndrxXaBase64Decode 0 xidStr with
  | none => none
  | some tmp =>
    if tmp.length < 6+tridLen+bqualLen ∨ 192 < tmp.length then none
    else
      let body := (tmp.drop 6).take (tridLen+bqualLen)
      ((readLengths tmp).poke 0 body).bind (fun xid => xid.poke 64 body)

/-- `atmi_xa_get_branch_xid` for the resource manager `rmid`, `tight` with
`NDRX_XA_FLAG_SYS_BTIGHT`. The result is also left in the thread's `G_atmi_tls->xid`. -/
def atmiXaGetBranchXid (tight : Bool) (rmid : UInt8) (tmxid : List UInt8) (btid : Int) : Option Xid :=
  (atmiXaDeserializeXid tmxid).bind (fun xid =>
    (xid.poke (xid.gtridLength-8-1) [rmid]).bind (fun xid =>
      (xid.poke (xid.gtridLength+xid.bqualLength-8-1) [rmid]).bind (fun xid =>
        (if tight then some xid else xid.poke (xid.gtridLength-8) (hton 8 btid)).bind (fun xid =>
          xid.poke (xid.gtridLength+xid.bqualLength-8) (hton 8 btid)))))

structure XidInfo where
  nodeid : Int
  srvid : Int
  rmidStart : UInt8
  rmidCur : UInt8
  btid : Int
  deriving DecidableEq

/-- `atmi_xa_xid_get_info`; `tls` is `G_atmi_tls->xid` of the calling thread. -/
def atmiXaXidGetInfo (tls xid : Xid) : Option XidInfo :=
  (xid.peek tridLen 1).bind (fun rmidStart =>
    (xid.peek (tridLen+1) 2).bind (fun nodeid =>
      (xid.peek (tridLen+1+2) 2).bind (fun srvid =>
        (xid.peek (xid.gtridLength-8-1) 1).bind (fun rmidCur =>
          (xid.peek (xid.gtridLength+tls.gtridLength-8) 8).map (fun btid =>
            ⟨ntoh nodeid, ntoh srvid, rmidStart.headD 0, rmidCur.headD 0, ntoh btid⟩)))))

def rawBytes (xid : Xid) : List UInt8 :=
  (hton 8 xid.formatID).reverse ++ (hton 8 xid.gtridLength).reverse ++
    (hton 8 xid.bqualLength).reverse ++ xid.data

def ofRawBytes (bs : List UInt8) : Option Xid :=
  if h : bs.length = 152 then
    some ⟨ntoh (bs.take 8).reverse, ntoh ((bs.drop 8).take 8).reverse, ntoh ((bs.drop 16).take 8).reverse,
      bs.drop 24, by rw [length_drop]; omega⟩
  else none

structure StatusQuery where
  xidStr : List UInt8
  rmidStart : UInt8
  nodeid : Int
  srvid : Int
  deriving DecidableEq

def processXid (tls : Xid) (tmxid : List UInt8) : Option StatusQuery :=
  (ndrxXaBase64Decode 152 tmxid).bind (fun bs =>
    (ofRawBytes (bs ++ replicate (152-bs.length) 0)).bind (fun xid =>
      if xid.formatID = ndrxXidFormatId ∨ ntoh (hton 8 xid.formatID).reverse = ndrxXidFormatId then
        (atmiXaXidGetInfo tls xid).bind (fun info =>
          (xid.poke (xid.gtridLength-8-1) (replicate 9 0)).map (fun base =>
            ⟨atmiXaSerializeXid base, info.rmidStart, info.nodeid, info.srvid⟩))
      else none))

structure Xid.Same (x y : Xid) (data : List UInt8) : Prop where
  formatID : y.formatID = x.formatID
  gtridLength : y.gtridLength = x.gtridLength
  bqualLength : y.bqualLength = x.bqualLength
  data : y.data = data

theorem Xid.Same.trans {x y z : Xid} {d e : List UInt8} (h : x.Same y d) (h' : y.Same z e) :
    x.Same z e :=
  ⟨h'.formatID.trans h.formatID, h'.gtridLength.trans h.gtridLength,
    h'.bqualLength.trans h.bqualLength, h'.data⟩

theorem poke_eq (x : Xid) (off : Int) (pre old post bs : List UInt8) (hx : x.data = pre ++ old ++ post)
    (hoff : off = pre.length) (hold : old.length = bs.length) :
    ∃ y, x.poke off bs = some y ∧ x.Same y (pre ++ bs ++ post) := by
  have hlen := x.data_len
  rw [hx] at hlen
  simp only [length_append] at hlen
  have hin : 0 ≤ off ∧ off+bs.length ≤ 128 := by omega
  have htake : x.data.take off.toNat = pre := by
    rw [hx, hoff, Int.toNat_natCast, append_assoc, take_left]
  have hdrop : x.data.drop (off.toNat+bs.length) = post := by
    rw [hx, hoff, Int.toNat_natCast, ← hold, ← length_append, drop_left]
  rw [Xid.poke, dif_pos hin]
  refine ⟨_, rfl, rfl, rfl, rfl, ?_⟩
  show x.data.take off.toNat ++ bs ++ x.data.drop (off.toNat+bs.length) = pre ++ bs ++ post
  rw [htake, hdrop]

theorem peek_eq {x : Xid} {off : Int} {n : ℕ} (pre post : List UInt8) {c : List UInt8}
    (hx : x.data = pre ++ c ++ post)
    (hoff : off = pre.length) (hn : n = c.length) : x.peek off n = some c := by
  have hlen := x.data_len
  rw [hx] at hlen
  simp only [length_append] at hlen
  rw [Xid.peek, if_pos (by omega), hx, hoff, Int.toNat_natCast, append_assoc, drop_left, hn,
    take_left]

@[simp] theorem hton_length (n : ℕ) (x : Int) : (hton n x).length = n := beBytes_length n _

def half (head : List UInt8) (rmid : UInt8) (btid : List UInt8) : List UInt8 :=
  head ++ replicate 34 0 ++ [rmid] ++ btid

variable {head : List UInt8}

theorem half_length {btid : List UInt8} (hh : head.length = 21) (hb : btid.length = 8)
    (rmid : UInt8) : (half head rmid btid).length = 64 := by
  simp only [half, length_append, length_replicate, length_singleton]
  omega

def built (head : List UInt8) (hh : head.length = 21) (rmid : UInt8) (btid btid' : List UInt8)
    (hb : btid.length = 8) (hb' : btid'.length = 8) : Xid :=
  ⟨ndrxXidFormatId, 64, 64, half head rmid btid ++ half head rmid btid', by
    rw [length_append, half_length hh hb, half_length hh hb']⟩

def headOf (uuid : List UInt8) (rmid : UInt8) (vnodeid srvId : Int) : List UInt8 :=
  uuid ++ [rmid] ++ hton 2 vnodeid ++ hton 2 srvId

theorem headOf_length {uuid : List UInt8} (hu : uuid.length = 16) (rmid : UInt8) (vnodeid srvId : Int) :
    (headOf uuid rmid vnodeid srvId).length = 21 := by
  simp [headOf, hu]

def zeros8 : List UInt8 := replicate 8 0

theorem zeros8_length : zeros8.length = 8 := length_replicate

theorem hton_zero : hton 8 0 = zeros8 := by decide

theorem atmiXaNewXid_eq {uuid : List UInt8} (hu : uuid.length = 16) (rmid : UInt8) (vnodeid srvId : Int) :
    atmiXaNewXid uuid rmid vnodeid srvId =
      some (built (headOf uuid rmid vnodeid srvId) (headOf_length hu rmid vnodeid srvId) 0 zeros8 zeros8
        zeros8_length zeros8_length) := by
  have hzero : freshXid.data = [] ++ replicate 16 0 ++ replicate 112 0 := rfl
  set fst := half (headOf uuid rmid vnodeid srvId) 0 zeros8 with hdef
  have hhalf : fst.length = 64 := half_length (headOf_length hu rmid vnodeid srvId) zeros8_length 0
  obtain ⟨x1, hp1, h1⟩ := poke_eq freshXid 0 [] (replicate 16 0) (replicate 112 0) uuid hzero rfl
    (by rw [hu, length_replicate])
  obtain ⟨x2, hp2, h2⟩ := poke_eq x1 tridLen uuid [0] (replicate 111 0) [rmid]
    (h1.data.trans (by simp [replicate_succ])) (by rw [hu]; rfl) rfl
  obtain ⟨x3, hp3, h3⟩ := poke_eq x2 (tridLen+1) (uuid ++ [rmid]) [0, 0] (replicate 109 0)
    (hton 2 vnodeid) (h2.data.trans (by simp [replicate_succ])) (by simp [hu, tridLen]) (by simp)
  obtain ⟨x4, hp4, h4⟩ := poke_eq x3 (tridLen+1+2) (uuid ++ [rmid] ++ hton 2 vnodeid) [0, 0]
    (replicate 107 0) (hton 2 srvId) (h3.data.trans (by simp [replicate_succ]))
    (by simp [hu, tridLen]) (by simp)
  have hd4 : x4.data = fst ++ replicate 64 0 ++ [] := by
    rw [h4.data, hdef, half, ← headOf]
    simp [zeros8]
  have htake : x4.data.take 64 = fst := by rw [hd4, append_assoc, take_left' hhalf]
  obtain ⟨_, hp5, h5⟩ := poke_eq x4 64 fst (replicate 64 0) [] fst hd4 (by rw [hhalf]; rfl)
    (by rw [hhalf, length_replicate])
  rw [atmiXaNewXid, hp1, bind_some, hp2, bind_some, hp3, bind_some, hp4, bind_some, htake, hp5]
  have h := (((h1.trans h2).trans h3).trans h4).trans h5
  refine congrArg some (Xid.ext h.formatID h.gtridLength h.bqualLength ?_)
  rw [h.data, append_nil]
  rfl

theorem tables_inverse : ∀ i < 64,
    decodingTableXa (encodingTableXa.getD i 0) = i ∧ encodingTableXa.getD i 0 ≠ Base64.padding := by
  decide

theorem ndrxXaBase64Decode_encode {bs : List UInt8} (hne : bs ≠ []) {room : ℕ}
    (hroom : room = 0 ∨ bs.length ≤ room) : ndrxXaBase64Decode room (ndrxXaBase64Encode bs) = some bs :=
  Base64.decode_encode tables_inverse hne hroom

theorem ntoh_hton {n : ℕ} (hn : 0 < n) {x : Int} (hlo : -(256^n/2) ≤ x) (hhi : x < 256^n/2) :
    ntoh (hton n x) = x := by
  have hpow : (0:Int) < 256^n := by positivity
  have hnn := Int.emod_nonneg x hpow.ne'
  have hlt := Int.emod_lt_of_pos x hpow
  have hval : beNat (hton n x) = (x % 256^n).toNat := by
    rw [hton, beNat_beBytes, Nat.mod_eq_of_lt]
    have : ((x % 256^n).toNat : Int) < (256^n : ℕ) := by
      rw [Int.toNat_of_nonneg hnn]
      exact_mod_cast hlt
    exact_mod_cast this
  have htwo : (2:Int)*(256^n/2) = 256^n := by
    obtain ⟨m, rfl⟩ : ∃ m, n = m+1 := ⟨n-1, by omega⟩
    omega
  rw [ntoh, hton_length, hval, Int.toNat_of_nonneg hnn]
  calc wrap (256^n/2) (x % 256^n) = wrap (256^n/2) x := wrap_congr (by rw [htwo]; exact Int.mod_modEq x _)
    _ = x := wrap_of_mem hlo hhi

theorem serialBytes_of_head (hh : head.length = 21) {x : Xid} {rest : List UInt8}
    (hf : x.formatID = ndrxXidFormatId) (hg : x.gtridLength = 64) (hq : x.bqualLength = 64)
    (hdata : x.data = head ++ rest) :
    serialBytes x = hton 4 ndrxXidFormatId ++ [64, 64] ++ head := by
  have htake : x.data.take tridLen = head.take tridLen := by
    rw [hdata, take_append_of_le_length (by rw [hh]; decide)]
  have hdrop : (x.data.drop tridLen).take bqualLen = head.drop tridLen := by
    rw [hdata, drop_append_of_le_length (by rw [hh]; decide)]
    apply take_left'
    rw [length_drop, hh]
    rfl
  rw [serialBytes, htake, hdrop, append_assoc _ (head.take tridLen), take_append_drop, hf, hg, hq]
  rfl

section

variable {head : List UInt8} (hh : head.length = 21) (rmid : UInt8) {btid btid' : List UInt8}
  (hb : btid.length = 8) (hb' : btid'.length = 8)

theorem serialBytes_built : serialBytes (built head hh rmid btid btid' hb hb') =
    hton 4 ndrxXidFormatId ++ [64, 64] ++ head := by
  apply serialBytes_of_head hh rfl rfl rfl
  show half head rmid btid ++ half head rmid btid' = _
  rw [half, append_assoc, append_assoc, append_assoc]

/-- The serialized form keeps all but the resource manager and the branch. -/
theorem deserialize_built : atmiXaDeserializeXid (atmiXaSerializeXid (built head hh rmid btid btid' hb hb')) =
    some (built head hh 0 zeros8 zeros8 zeros8_length zeros8_length) := by
  have hbytes := serialBytes_built hh rmid hb hb'
  have hlen : (hton 4 ndrxXidFormatId ++ [64, 64] ++ head).length = 27 := by
    simp only [length_append, hh]
    rfl
  have hbody : ((hton 4 ndrxXidFormatId ++ [64, 64] ++ head).drop 6).take (tridLen+bqualLen) = head := by
    rw [drop_left' (by rfl), take_of_length_le (by rw [hh]; decide)]
  have hhalf : half head 0 zeros8 = head ++ replicate 43 0 := by
    rw [half, append_assoc, append_assoc]
    rfl
  rw [atmiXaDeserializeXid, atmiXaSerializeXid, hbytes,
    ndrxXaBase64Decode_encode (ne_nil_of_length_pos (by omega)) (.inl rfl)]
  dsimp only
  rw [if_neg (by rw [hlen]; decide), hbody]
  obtain ⟨x1, hp1, h1⟩ := poke_eq (readLengths (hton 4 ndrxXidFormatId ++ [64, 64] ++ head)) 0 []
    (replicate 21 0) (replicate 43 0 ++ replicate 64 0) head rfl rfl
    (by rw [hh, length_replicate])
  obtain ⟨_, hp2, h2⟩ := poke_eq x1 64 (head ++ replicate 43 0) (replicate 21 0)
    (replicate 43 0) head (h1.data.trans (by simp [replicate_succ]))
    (by simp [hh]) (by rw [hh, length_replicate])
  rw [hp1, bind_some, hp2]
  have h := h1.trans h2
  refine congrArg some (Xid.ext ?_ h.gtridLength h.bqualLength ?_)
  · rw [h.formatID]
    show (beNat ((hton 4 ndrxXidFormatId ++ [64, 64] ++ head).take 4) : Int) = ndrxXidFormatId
    rw [append_assoc, take_left' (hton_length 4 _)]
    decide
  · rw [h.data]
    show _ = half head 0 zeros8 ++ half head 0 zeros8
    rw [hhalf, append_assoc]

/-- The trailer of the branch is put into both halves, the branch id with tight branching only into
the second. -/
theorem branch_built (tight : Bool) (rm : UInt8) (bt : Int) {s : List UInt8}
    (hs : atmiXaDeserializeXid s = some (built head hh 0 zeros8 zeros8 zeros8_length zeros8_length)) :
    atmiXaGetBranchXid tight rm s bt =
      some (built head hh rm (if tight then zeros8 else hton 8 bt) (hton 8 bt)
        (by split; exacts [zeros8_length, hton_length 8 bt]) (hton_length 8 bt)) := by
  obtain ⟨x1, hp1, h1⟩ := poke_eq (built head hh 0 zeros8 zeros8 zeros8_length zeros8_length) 55
    (head ++ replicate 34 0) [0] (zeros8 ++ half head 0 zeros8) [rm]
    (by show half head 0 zeros8 ++ half head 0 zeros8 = _; rw [half]; simp only [append_assoc])
    (by simp [hh]) rfl
  obtain ⟨x2, hp2, h2⟩ := poke_eq x1 119 (half head rm zeros8 ++ head ++ replicate 34 0) [0] zeros8
    [rm] (h1.data.trans (by simp [half]))
    (by simp [half_length hh zeros8_length, hh]) rfl
  have hd2 : x2.data = half head rm zeros8 ++ half head rm zeros8 := by
    rw [h2.data]
    simp only [half, append_assoc]
  -- the branch id of the first half
  have hfirst : ∃ x3, (if tight then some x2 else x2.poke 56 (hton 8 bt)) = some x3 ∧
      x2.Same x3 (half head rm (if tight then zeros8 else hton 8 bt) ++ half head rm zeros8) := by
    cases tight with
    | true =>
      refine ⟨x2, by rw [if_pos rfl], rfl, rfl, rfl, ?_⟩
      exact hd2
    | false =>
      obtain ⟨x3, hp3, h3⟩ := poke_eq x2 56 (head ++ replicate 34 0 ++ [rm]) zeros8
        (half head rm zeros8) (hton 8 bt) (hd2.trans (by rw [half])) (by simp [hh])
        (by rw [zeros8_length, hton_length])
      refine ⟨x3, by rw [if_neg (by decide)]; exact hp3, ?_⟩
      exact h3
  obtain ⟨x3, hp3, h3⟩ := hfirst
  have hb3 : (if tight then zeros8 else hton 8 bt).length = 8 := by
    split
    · exact zeros8_length
    · exact hton_length 8 bt
  obtain ⟨_, hp4, h4⟩ := poke_eq x3 120
    (half head rm (if tight then zeros8 else hton 8 bt) ++ head ++ replicate 34 0 ++ [rm]) zeros8 []
    (hton 8 bt) (h3.data.trans (by simp only [half, append_assoc, append_nil]))
    (by simp [half_length hh hb3, hh]) (by rw [zeros8_length, hton_length])
  have h12 := h1.trans h2
  have h13 := h12.trans h3
  have h := h13.trans h4
  have hsize : (built head hh 0 zeros8 zeros8 zeros8_length zeros8_length).gtridLength = 64 ∧
      (built head hh 0 zeros8 zeros8 zeros8_length zeros8_length).bqualLength = 64 := ⟨rfl, rfl⟩
  rw [atmiXaGetBranchXid, hs, bind_some, hsize.1, show (64-8-1 : Int) = 55 from rfl, hp1, bind_some,
    h1.gtridLength, h1.bqualLength, hsize.1, hsize.2, show (64+64-8-1 : Int) = 119 from rfl, hp2,
    bind_some, h12.gtridLength, hsize.1, show (64-8 : Int) = 56 from rfl, hp3, bind_some,
    h13.gtridLength, h13.bqualLength, hsize.1, hsize.2, show (64+64-8 : Int) = 120 from rfl, hp4]
  refine congrArg some (Xid.ext h.formatID h.gtridLength h.bqualLength ?_)
  rw [h.data]
  show _ = half head rm _ ++ half head rm _
  simp only [half, append_assoc, append_nil]

theorem rawBytes_length : (rawBytes (built head hh rmid btid btid' hb hb')).length = 152 := by
  have h := (built head hh rmid btid btid' hb hb').data_len
  simp [rawBytes, h]

theorem ofRawBytes_built : ofRawBytes (rawBytes (built head hh rmid btid btid' hb hb')) =
    some (built head hh rmid btid btid' hb hb') := by
  have hlen := rawBytes_length hh rmid hb hb'
  have hword (x : Int) : (hton 8 x).reverse.length = 8 := by rw [length_reverse, hton_length]
  have hread (x : Int) (hlo : -(256^8/2) ≤ x) (hhi : x < 256^8/2) (rest : List UInt8) :
      ntoh (((hton 8 x).reverse ++ rest).take 8).reverse = x := by
    rw [take_left' (hword x), reverse_reverse, ntoh_hton (by decide) hlo hhi]
  have hraw : rawBytes (built head hh rmid btid btid' hb hb') = (hton 8 ndrxXidFormatId).reverse ++
      ((hton 8 64).reverse ++ ((hton 8 64).reverse ++ (built head hh rmid btid btid' hb hb').data)) := by
    rfl
  have hfmt := hread ndrxXidFormatId (by decide) (by decide)
  have hsize := hread 64 (by decide) (by decide)
  rw [ofRawBytes, dif_pos hlen]
  refine congrArg some (Xid.ext ?_ ?_ ?_ ?_)
  · show ntoh ((rawBytes _).take 8).reverse = ndrxXidFormatId
    rw [hraw, hfmt]
  · show ntoh (((rawBytes _).drop 8).take 8).reverse = 64
    rw [hraw, drop_left' (hword _), hsize]
  · show ntoh (((rawBytes _).drop 16).take 8).reverse = 64
    rw [hraw, ← append_assoc, drop_left' (by rw [length_append, hword, hword]), hsize]
  · show (rawBytes (built head hh rmid btid btid' hb hb')).drop 24 = _
    apply drop_left'
    simp

end

section

variable {uuid head : List UInt8} (hu : uuid.length = 16) {start : UInt8} {nodeid srvid : Int}
  (hh : head.length = 21) (hd : head = headOf uuid start nodeid srvid)
  (hn : -32768 ≤ nodeid ∧ nodeid < 32768) (hs : -32768 ≤ srvid ∧ srvid < 32768) (rmid : UInt8)
  {btid btid' : List UInt8} (hb : btid.length = 8) (hb' : btid'.length = 8)

include hu hd hn hs

theorem getInfo_built (tls : Xid) :
    atmiXaXidGetInfo tls (built head hh rmid btid btid' hb hb') =
      ((built head hh rmid btid btid' hb hb').peek (64+tls.gtridLength-8) 8).map
        (fun b => ⟨nodeid, srvid, start, rmid, ntoh b⟩) := by
  have hdata : (built head hh rmid btid btid' hb hb').data = uuid ++ [start] ++ hton 2 nodeid ++
      hton 2 srvid ++ replicate 34 0 ++ [rmid] ++ btid ++ half head rmid btid' := by
    subst hd
    rfl
  generalize hx : built head hh rmid btid btid' hb hb' = x at hdata
  have hgt : x.gtridLength = 64 := by
    rw [← hx]
    rfl
  have h1 : x.peek tridLen 1 = some [start] := peek_eq uuid (hton 2 nodeid ++ hton 2 srvid ++
    replicate 34 0 ++ [rmid] ++ btid ++ half head rmid btid')
    (hdata.trans (by simp)) (by rw [hu]; rfl) rfl
  have h2 : x.peek (tridLen+1) 2 = some (hton 2 nodeid) := peek_eq (uuid ++ [start]) (hton 2 srvid ++
    replicate 34 0 ++ [rmid] ++ btid ++ half head rmid btid')
    (hdata.trans (by simp)) (by simp [hu, tridLen]) (hton_length 2 _).symm
  have h3 : x.peek (tridLen+1+2) 2 = some (hton 2 srvid) := peek_eq (uuid ++ [start] ++ hton 2 nodeid)
    (replicate 34 0 ++ [rmid] ++ btid ++ half head rmid btid')
    (hdata.trans (by simp)) (by simp [hu, tridLen]) (hton_length 2 _).symm
  have h4 : x.peek (64-8-1) 1 = some [rmid] := peek_eq (uuid ++ [start] ++ hton 2 nodeid ++
    hton 2 srvid ++ replicate 34 0) (btid ++ half head rmid btid')
    (hdata.trans (by simp)) (by simp [hu]) rfl
  rw [atmiXaXidGetInfo, h1, h2, bind_some, h3, bind_some, hgt, h4,
    bind_some, ntoh_hton (by decide) hn.1 hn.2, ntoh_hton (by decide) hs.1 hs.2]
  rfl

omit hu hd hn hs in
theorem peek_btid (tls : Xid) (htls : tls.gtridLength = 0 ∨ tls.gtridLength = 64) :
    (built head hh rmid btid btid' hb hb').peek (64+tls.gtridLength-8) 8 =
      some (if tls.gtridLength = 0 then btid else btid') := by
  rcases htls with h | h
  · rw [h, if_pos rfl]
    exact peek_eq (head ++ replicate 34 0 ++ [rmid]) (half head rmid btid') rfl (by simp [hh]) hb.symm
  · rw [h, if_neg (by decide)]
    refine peek_eq (half head rmid btid ++ (head ++ replicate 34 0 ++ [rmid])) [] ?_ ?_ hb'.symm
    · show half head rmid btid ++ half head rmid btid' = _
      simp only [half, append_assoc, append_nil]
    · simp [half_length hh hb, hh]

theorem processXid_built (tls : Xid) (htls : tls.gtridLength = 0 ∨ tls.gtridLength = 64) :
    processXid tls (ndrxXaBase64Encode (rawBytes (built head hh rmid btid btid' hb hb'))) =
      some ⟨atmiXaSerializeXid (built head hh 0 zeros8 zeros8 zeros8_length zeros8_length), start,
        nodeid, srvid⟩ := by
  have hlen := rawBytes_length hh rmid hb hb'
  have hdec : ndrxXaBase64Decode 152 (ndrxXaBase64Encode (rawBytes (built head hh rmid btid btid' hb hb'))) =
      some (rawBytes (built head hh rmid btid btid' hb hb')) :=
    ndrxXaBase64Decode_encode (ne_nil_of_length_pos (by omega)) (.inr (by omega))
  obtain ⟨y, hy, hsame⟩ := poke_eq (built head hh rmid btid btid' hb hb') (64-8-1)
    (head ++ replicate 34 0) ([rmid] ++ btid) (half head rmid btid') (replicate 9 0)
    (by show half _ rmid btid ++ _ = _; rw [half]; simp only [append_assoc]) (by simp [hh])
    (by rw [length_append, hb]; rfl)
  have hyeq : serialBytes y = serialBytes (built head hh 0 zeros8 zeros8 zeros8_length
      zeros8_length) := by
    rw [serialBytes_built]
    apply serialBytes_of_head hh hsame.formatID hsame.gtridLength hsame.bqualLength
    rw [hsame.data, append_assoc, append_assoc]
  rw [processXid, hdec, bind_some, hlen, replicate_zero, append_nil,
    ofRawBytes_built hh rmid hb hb', bind_some, if_pos (.inl rfl),
    getInfo_built hu hh hd hn hs rmid hb hb' tls, peek_btid hh rmid hb hb' tls htls, map_some,
    bind_some]
  show (Xid.poke _ (64-8-1) _).map _ = _
  rw [hy, map_some, atmiXaSerializeXid, hyeq]
  rfl

end

/-- What is to hold of the branch `btid` of the resource `rmid`: no other pair has this branch XID, the
text of the transaction's XID can be read back, the parts can be read from the branch XID by a thread
with `tls`, and `tmrecover` finds the transaction's own text and manager. -/
def BranchExact (tight : Bool) (uuid : List UInt8) (start : UInt8) (nodeid srvid : Int) (rmid : UInt8)
    (btid : Int) (tls : Xid) : Prop :=
  ∃ xid branch, atmiXaNewXid uuid start nodeid srvid = some xid ∧
    atmiXaGetBranchXid tight rmid (atmiXaSerializeXid xid) btid = some branch ∧
    atmiXaDeserializeXid (atmiXaSerializeXid xid) = some xid ∧
    (∀ rmid' btid', -9223372036854775808 ≤ btid' → btid' < 9223372036854775808 →
      atmiXaGetBranchXid tight rmid' (atmiXaSerializeXid xid) btid' = some branch →
      rmid' = rmid ∧ btid' = btid) ∧
    atmiXaXidGetInfo tls branch = some ⟨nodeid, srvid, start, rmid, btid⟩ ∧
    processXid tls (ndrxXaBase64Encode (rawBytes branch)) =
      some ⟨atmiXaSerializeXid xid, start, nodeid, srvid⟩

theorem branch_inj {hh : head.length = 21} {rmid rmid' : UInt8} {b1 b2 b1' b2' : List UInt8}
    {h1 : b1.length = 8} {h2 : b2.length = 8} {h1' : b1'.length = 8} {h2' : b2'.length = 8}
    (h : built head hh rmid b1 b2 h1 h2 = built head hh rmid' b1' b2' h1' h2') :
    rmid = rmid' ∧ b2 = b2' := by
  have hdata : half head rmid b1 ++ half head rmid b2 = half head rmid' b1' ++ half head rmid' b2' :=
    congrArg Xid.data h
  have hsnd := (append_inj hdata (by rw [half_length hh h1, half_length hh h1'])).2
  have htail := append_inj hsnd (by simp)
  have hrm := (append_inj htail.1 (by simp)).2
  exact ⟨List.cons.inj hrm |>.1, htail.2⟩

/-- The identifiers are exact where the thread has made a branch XID before, or branching is not
tight, or the branch is the first. -/
theorem branch_exact_iff {tight : Bool} {uuid : List UInt8} (hu : uuid.length = 16) {start : UInt8}
    {nodeid srvid : Int} (hn : -32768 ≤ nodeid ∧ nodeid < 32768) (hs : -32768 ≤ srvid ∧ srvid < 32768)
    {rmid : UInt8} {btid : Int} (hlo : -9223372036854775808 ≤ btid) (hhi : btid < 9223372036854775808)
    {tls : Xid} (htls : tls.gtridLength = 0 ∨ tls.gtridLength = 64) :
    BranchExact tight uuid start nodeid srvid rmid btid tls ↔
      (tls.gtridLength = 64 ∨ tight = false ∨ btid = 0) := by
  have hh := headOf_length hu start nodeid srvid
  have hnew := atmiXaNewXid_eq hu start nodeid srvid
  have hser := deserialize_built hh 0 zeros8_length zeros8_length
  have hbranch (rm : UInt8) (bt : Int) := branch_built hh tight rm bt hser
  have hb1 : (if tight then zeros8 else hton 8 btid).length = 8 := by
    split
    · exact zeros8_length
    · exact hton_length 8 btid
  have hback : ntoh (hton 8 btid) = btid := ntoh_hton (by decide) hlo hhi
  have hzero : ntoh zeros8 = 0 := hton_zero ▸ ntoh_hton (by decide) (by decide) (by decide)
  have hinfo := (getInfo_built hu hh rfl hn hs rmid hb1 (hton_length 8 btid) tls).trans
    (by rw [peek_btid hh rmid hb1 (hton_length 8 btid) tls htls, map_some])
  constructor
  · rintro ⟨_, _, hx, hbr, -, -, hread, -⟩
    cases hnew.symm.trans hx
    cases (hbranch rmid btid).symm.trans hbr
    by_contra hcon
    push Not at hcon
    obtain ⟨h64, ht, h0⟩ := hcon
    have htls0 : tls.gtridLength = 0 := htls.resolve_right h64
    rw [hinfo, if_pos htls0, if_pos (by simpa using ht), hzero] at hread
    exact h0 (XidInfo.mk.inj (some.inj hread)).2.2.2.2.symm
  · intro hcond
    refine ⟨_, _, hnew, hbranch rmid btid, hser, ?_, ?_, ?_⟩
    · intro rmid' btid' hlo' hhi' heq
      obtain ⟨hrm, hbt⟩ := branch_inj (some.inj ((hbranch rmid' btid').symm.trans heq))
      refine ⟨hrm, ?_⟩
      rw [← ntoh_hton (n := 8) (by decide) hlo' hhi', hbt, hback]
    · rw [hinfo]
      -- each of the three makes the bytes found those of the branch id
      have hval : ntoh (if tls.gtridLength = 0 then (if tight then zeros8 else hton 8 btid)
          else hton 8 btid) = btid := by
        rcases hcond with h | h | h
        · rw [h, if_neg (by decide), hback]
        · rw [h, if_neg (show ¬ false = true by decide), ite_self, hback]
        · rw [h, hton_zero, ite_self, ite_self, hzero]
      rw [hval]
    · exact processXid_built hu hh rfl hn hs rmid hb1 (hton_length 8 btid) tls htls

theorem branch_exact_loose : BranchExact false (replicate 16 7) 1 2 3 4 5 Xid.zero :=
  (branch_exact_iff rfl (by decide) (by decide) (by decide) (by decide) (.inl rfl)).mpr (.inr (.inl rfl))

/-- With tight branching that thread reads the branch id from the half that does not have it. -/
theorem branch_exact_tight_fails : ¬ BranchExact true (replicate 16 7) 1 2 3 4 5 Xid.zero := by
  have hread : ((atmiXaNewXid (replicate 16 7) 1 2 3).bind fun xid =>
      (atmiXaGetBranchXid true 4 (atmiXaSerializeXid xid) 5).bind (atmiXaXidGetInfo Xid.zero)) =
        some ⟨2, 3, 1, 4, 0⟩ := by
    decide +kernel
  rintro ⟨_, _, hnew, hbranch, -, -, hinfo, -⟩
  rw [hnew, bind_some, hbranch, bind_some, hinfo] at hread
  exact absurd hread (by decide)

end Endurox.XaXid
