import LogRules.Processing.Function
import LogRules.Proofs.Processing.Settings
import LogRules.Proofs.Text.Decimal
import LogRules.Proofs.Text.Split

/-! # Members of networks

A mask keeps the first bits of a number, also when it keeps none of them and its shift overflows
(`getMsbD_mask`). So an address is in a network when it shares the bits that count with it
(`Block.contains_iff`). A network is written as an address, alone or with the number of its bits
(`Block.ofText?_eq_some_iff`). Together: an address is inside when it shares the bits of a network of the
options (`direction_of_networks`). -/

namespace LogRules.Network

/-! ### Masks -/

variable {w count : Nat}

/-- The first bits of a mask are set, and no others. -/
theorem getMsbD_mask (i : Nat) : (mask w count).getMsbD i = decide (i < w ∧ i < count) := by
  unfold mask shiftLeft?
  split
  · rw [Option.getD_some, BitVec.getMsbD_shiftLeft, BitVec.getMsbD_allOnes, decide_eq_decide]
    omega
  · -- nothing is shifted in, so no bit counts
    rw [Option.getD_none, BitVec.ofNat_eq_ofNat, BitVec.getMsbD_zero, eq_comm, decide_eq_false_iff_not]
    omega

/-- Masked numbers are the same when their first bits are. -/
theorem and_mask_eq_iff {a b : BitVec w} :
    a &&& mask w count = b &&& mask w count ↔ ∀ i < count, a.getMsbD i = b.getMsbD i := by
  constructor
  · intro h i hi
    by_cases hw : i < w
    · have hbit := congrArg (fun x => x.getMsbD i) h
      simpa [getMsbD_mask, hw, hi] using hbit
    · rw [BitVec.getMsbD_of_ge _ _ (by omega), BitVec.getMsbD_of_ge _ _ (by omega)]
  · intro h
    refine BitVec.eq_of_getMsbD_eq fun i _ => ?_
    rw [BitVec.getMsbD_and, BitVec.getMsbD_and, getMsbD_mask]
    by_cases hi : i < count
    · rw [h i hi]
    · simp [hi]

/-! ### Networks -/

/-- The addresses are of one version and have the same first bits. -/
def SharesBits (count : Nat) : Address → Address → Prop
  | .v4 a, .v4 b => ∀ i < count, a.getMsbD i = b.getMsbD i
  | .v6 a, .v6 b => ∀ i < count, a.getMsbD i = b.getMsbD i
  | _, _ => False

/-- A network has the addresses that share its bits. -/
theorem Block.contains_iff {block : Block} {address : Address} :
    block.contains address = true ↔ SharesBits block.bits block.address address := by
  obtain ⟨net, bits⟩ := block
  cases net with
  | v4 a =>
      cases address with
      | v4 b =>
          change (a &&& mask 32 bits == b &&& mask 32 bits) = true ↔ _
          rw [beq_iff_eq, and_mask_eq_iff, SharesBits]
      | v6 b => exact Bool.false_eq_true.to_iff
  | v6 a =>
      cases address with
      | v4 b => exact Bool.false_eq_true.to_iff
      | v6 b =>
          change (a &&& mask 128 bits == b &&& mask 128 bits) = true ↔ _
          rw [beq_iff_eq, and_mask_eq_iff, SharesBits]

/-- The text writes an address. White space may stand around it. -/
def WritesAddress (text : List Char) (address : Address) : Prop :=
  Address.ofText? (String.ofList (Text.trim text)) = some address

/-- The text writes a network: an address, whose bits all count, or an address, a slash and the number of
bits that count. White space may stand around the number, too. -/
inductive WritesBlock : List Char → Block → Prop
  | host {text : List Char} {address : Address} (slash : '/' ∉ text)
      (writes : WritesAddress text address) : WritesBlock text ⟨address, address.width⟩
  | counted {front bits : List Char} {address : Address} {n : Nat} (slash : '/' ∉ front)
      (writes : WritesAddress front address) (number : Text.WritesNatural (Text.trim bits) n)
      (le_width : n ≤ address.width) : WritesBlock (front ++ '/' :: bits) ⟨address, n⟩

theorem Address.width_le (address : Address) : address.width ≤ 128 := by
  cases address with
  | v4 bits => exact (by decide : 32 ≤ 128)
  | v6 bits => exact le_rfl

/-- No more bits count than an address has. -/
theorem WritesBlock.bits_le {text : List Char} {block : Block} (h : WritesBlock text block) :
    block.bits ≤ block.address.width := by
  cases h with
  | host => exact le_rfl
  | counted slash writes number le_width => exact le_width

/-- The reader accepts the texts of networks. -/
theorem Block.ofText?_eq_some_iff {text : String} {block : Block} :
    ofText? text = some block ↔ WritesBlock text.toList block := by
  unfold ofText?
  cases hsplit : Text.splitFirst? '/' text.toList with
  | none =>
      have hslash : '/' ∉ text.toList := by
        intro hmem
        obtain ⟨front, bits, htext, hfront⟩ := List.eq_append_cons_of_mem hmem
        exact nomatch hsplit.symm.trans (Text.splitFirst?_eq_some_iff.mpr ⟨hfront, htext⟩)
      simp only [Option.bind_eq_bind, Option.bind_eq_some_iff, Option.pure_def, Option.some.injEq]
      constructor
      · rintro ⟨address, haddress, rfl⟩
        exact .host hslash haddress
      · intro h
        generalize htext : text.toList = cs at h hslash
        cases h with
        | host _ writes => exact ⟨_, writes, rfl⟩
        | counted => simp at hslash
  | some parts =>
      obtain ⟨front, bits⟩ := parts
      obtain ⟨hfront, htext⟩ := Text.splitFirst?_eq_some_iff.mp hsplit
      simp only [Option.bind_eq_bind, Option.bind_eq_some_iff, Option.pure_def,
        Text.bounded?_eq_some_iff, htext]
      constructor
      · rintro ⟨address, haddress, n, ⟨hnumber, -⟩, h⟩
        split at h
        · cases h
        · next hle =>
            cases h
            exact .counted hfront haddress hnumber (Nat.le_of_not_lt hle)
      · intro h
        generalize hcs : front ++ '/' :: bits = cs at h
        cases h with
        | host slash => simp [← hcs] at slash
        | @counted front' bits' address n slash writes number le_width =>
            have hsame : Text.splitFirst? '/' (front ++ '/' :: bits) = some (front, bits) :=
              Text.splitFirst?_append hfront
            rw [hcs, Text.splitFirst?_append slash] at hsame
            cases hsame
            have hmax : n ≤ 255 := le_width.trans (address.width_le.trans (by decide))
            exact ⟨address, writes, n, ⟨number, hmax⟩, if_neg (Nat.not_lt.mpr le_width)⟩

/-- A text writes one network at most. -/
theorem WritesBlock.unique {text : List Char} {block other : Block} (h : WritesBlock text block)
    (hother : WritesBlock text other) : other = block := by
  have hread : ∀ {b}, WritesBlock text b → Block.ofText? (String.ofList text) = some b := fun h =>
    Block.ofText?_eq_some_iff.mpr (by rwa [String.toList_ofList])
  exact Option.some.inj ((hread hother).symm.trans (hread h))

/-- Every number of bits from none to all may be written. -/
theorem writesBlock_toString {front : List Char} {address : Address} {n : Nat} (slash : '/' ∉ front)
    (writes : WritesAddress front address) (le_width : n ≤ address.width) :
    WritesBlock (front ++ '/' :: (toString n).toList) ⟨address, n⟩ := by
  refine .counted slash writes ?_ le_width
  rw [Text.trim_eq_self fun c hc => Text.isBlank_of_isDigit (Text.isDigit_of_mem_toString n c hc)]
  exact Text.writesNatural_toString n

/-- The address shares the bits of a network that is written by one of the texts. -/
def InNetworks (texts : List String) (address : Address) : Prop :=
  ∃ text ∈ texts, ∃ block, WritesBlock text.toList block ∧ SharesBits block.bits block.address address

/-- The texts write these networks, one each. -/
def WritesBlocks : List String → List Block → Prop :=
  List.Forall₂ fun text block => WritesBlock text.toList block

theorem WritesBlocks.inNetworks_iff {texts : List String} {blocks : List Block}
    (h : WritesBlocks texts blocks) {address : Address} :
    (∃ block ∈ blocks, SharesBits block.bits block.address address) ↔ InNetworks texts address := by
  unfold InNetworks
  induction h with
  | nil => simp
  | cons hblock _ ih =>
      rw [List.exists_mem_cons_iff, List.exists_mem_cons_iff, ih]
      refine or_congr_left ⟨fun hshares => ⟨_, hblock, hshares⟩, ?_⟩
      rintro ⟨other, hother, hshares⟩
      rwa [hblock.unique hother] at hshares

theorem WritesBlocks.exists_block {texts : List String} {blocks : List Block} (h : WritesBlocks texts blocks)
    {text : String} (hmem : text ∈ texts) : ∃ block, WritesBlock text.toList block := by
  induction h with
  | nil => cases hmem
  | cons hblock _ ih =>
      rcases List.mem_cons.mp hmem with rfl | hmem
      · exact ⟨_, hblock⟩
      · exact ih hmem

end LogRules.Network

namespace LogRules

open Network

section Options

variable {year : Int} {config : Config} {settings : Settings}

/-- The networks of the settings are those that the options write. -/
theorem Settings.writesBlocks_of_ofConfig (h : ofConfig year config = .ok settings) :
    WritesBlocks config.localNetworks settings.networks :=
  (of_ofConfig h).2.2.imp fun _ _ => Block.ofText?_eq_some_iff.mp

/-- An address is inside when it is in a network of the options. -/
theorem Settings.isInside_iff (h : ofConfig year config = .ok settings) {address : Address} :
    settings.isInside address = true ↔ InNetworks config.localNetworks address := by
  rw [← (writesBlocks_of_ofConfig h).inNetworks_iff, isInside, List.any_eq_true]
  simp only [Block.contains_iff]

/-- **Members of the networks.** A mask keeps exactly the bits that count, none included. A network may be
written with every number of bits that its address has, and the networks of options that are accepted have no
other numbers. The check of an address that can be read finds it inside exactly when it shares the bits of one
of the networks, and says so with a one or a zero. -/
theorem direction_of_networks (hsettings : Settings.ofConfig year config = .ok settings) {text : String}
    {address : Address} (haddress : WritesAddress text.toList address) :
    (∀ w count, count ≤ w → ∀ i, (mask w count).getMsbD i = decide (i < count)) ∧
    (∀ front net n, '/' ∉ front → WritesAddress front net → n ≤ net.width →
      Block.ofText? (String.ofList (front ++ '/' :: (toString n).toList)) = some ⟨net, n⟩) ∧
    (∀ network ∈ config.localNetworks, ∃! block,
      WritesBlock network.toList block ∧ block.bits ≤ block.address.width) ∧
    (InNetworks config.localNetworks address → Function.call settings .direction [text] = .ok "1") ∧
    (¬ InNetworks config.localNetworks address → Function.call settings .direction [text] = .ok "0") := by
  have hcall : Function.call settings .direction [text] =
      .ok (if settings.isInside address then "1" else "0") := by
    have hread : Address.ofText? (Text.trimmed text) = some address := haddress
    unfold Function.call
    simp only [hread]
  refine ⟨fun w count hle i => ?_, fun front net n slash writes hle => ?_, fun network hmem => ?_,
    fun hin => ?_, fun hout => ?_⟩
  · rw [getMsbD_mask, decide_eq_decide]
    omega
  · rw [Block.ofText?_eq_some_iff, String.toList_ofList]
    exact writesBlock_toString slash writes hle
  · obtain ⟨block, hblock⟩ := (Settings.writesBlocks_of_ofConfig hsettings).exists_block hmem
    exact ⟨block, ⟨hblock, hblock.bits_le⟩, fun other hother => hblock.unique hother.1⟩
  · rw [hcall, if_pos ((Settings.isInside_iff hsettings).mpr hin)]
  · rw [hcall, if_neg fun hin => hout ((Settings.isInside_iff hsettings).mp hin)]

end Options

/-- Options with a network of each version and a single address. -/
def siteConfig : Config where
  localNetworks := ["10.0.0.0/8", "fd00::/8", " 192.168.1.1"]

theorem direction_of_networks_site :
    ∃ settings, Settings.ofConfig 2021 siteConfig = .ok settings ∧
      WritesAddress " 10.20.30.40".toList (.v4 0x0A141E28) ∧
      InNetworks siteConfig.localNetworks (.v4 0x0A141E28) ∧
      Function.call settings .direction [" 10.20.30.40"] = .ok "1" ∧
      WritesAddress "192.168.1.2".toList (.v4 0xC0A80102) ∧
      ¬ InNetworks siteConfig.localNetworks (.v4 0xC0A80102) ∧
      Function.call settings .direction ["192.168.1.2"] = .ok "0" := by
  have hsettings : Settings.ofConfig 2021 siteConfig = .ok ⟨.utc, 2021,
      [⟨.v4 0x0A000000, 8⟩, ⟨.v6 0xFD000000000000000000000000000000, 8⟩, ⟨.v4 0xC0A80101, 32⟩]⟩ := rfl
  have hinside : WritesAddress " 10.20.30.40".toList (.v4 0x0A141E28) := by
    unfold WritesAddress
    decide +kernel
  have houtside : WritesAddress "192.168.1.2".toList (.v4 0xC0A80102) := by
    unfold WritesAddress
    decide +kernel
  have hin : InNetworks siteConfig.localNetworks (.v4 0x0A141E28) :=
    (Settings.isInside_iff hsettings).mp (by decide +kernel)
  have hout : ¬ InNetworks siteConfig.localNetworks (.v4 0xC0A80102) := fun hin =>
    absurd ((Settings.isInside_iff hsettings).mpr hin) (by decide +kernel)
  obtain ⟨-, -, -, hone, -⟩ := direction_of_networks hsettings hinside
  obtain ⟨-, -, -, -, hzero⟩ := direction_of_networks hsettings houtside
  exact ⟨_, hsettings, hinside, hin, hone hin, houtside, hout, hzero hout⟩

end LogRules
