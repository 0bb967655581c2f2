import Lethean.CryptonoteCore.Emission

/-!
# Lethean.CryptonoteCore.Premine

The block after the genesis block may claim the premine. `get_block_reward`
knows that block by the running total alone: any total between 0 and a
threshold grants the premine. A miner may claim less than the reward, and then
the total stays below the threshold and the next block is granted the premine
again. What the granted blocks claim together stays within one premine exactly
when each of them leaves the total within one premine of the genesis block.
-/

namespace Lethean

/-- The total grants the premine to the next block. -/
def GrantsPremine (coins : Nat) : Prop := 0 < coins ∧ coins < premineThreshold

instance (coins : Nat) : Decidable (GrantsPremine coins) :=
  inferInstanceAs (Decidable (_ ∧ _))

namespace Blockchain

variable {env : Env} {now : Nat} {bc bc₀ : Blockchain} {bl : Block} {id : Hash} {s : TxLoop}
  {r r' record genesis : StoredBlock} {rest : List StoredBlock} {bound : ℤ}

/-- The coins minted by the blocks that were granted the premine, on a chain
that follows a block with the total `coins`. -/
def premineClaims (coins : Nat) : List StoredBlock → ℤ
  | [] => 0
  | r :: rest => (if GrantsPremine coins then netEmission r else 0) + premineClaims r.coins rest

/-- A block that is granted the premine leaves the total within the bound. -/
def ClaimWithin (bound : ℤ) (r r' : StoredBlock) : Prop :=
  GrantsPremine r.coins → r.coins + netEmission r' ≤ bound

/-! ### The totals of neighbouring blocks -/

/-- How the total grows from one block to the next: it never falls and never
passes the supply, and short of the supply it grows by at least what was
minted. -/
structure CoinStep (r r' : StoredBlock) : Prop where
  mono : r.coins ≤ r'.coins
  capped : r'.coins ≤ moneySupply
  covers : r'.coins < moneySupply → r.coins + netEmission r' ≤ r'.coins

/-- Whatever the fees and the sizes are, an accepted block makes such a step:
a difference that wraps is larger than the exact one. -/
theorem Accepted.coinStep (hacc : Accepted env now bc bl id s record)
    (hpool : bc.txPool.FeesRecorded) (hamounts : ∀ o ∈ bl.minerTx.vout, o.amount < 2 ^ 64)
    (htop : topCoins bc.db ≤ moneySupply) :
    topCoins bc.db ≤ record.coins ∧ record.coins ≤ moneySupply ∧
      (record.coins < moneySupply → topCoins bc.db + netEmission record ≤ record.coins) := by
  obtain ⟨net, partialReward, hvalid, rfl⟩ := hacc.record_eq
  obtain ⟨reward, -, hnet, -⟩ := validateMiner_inv hvalid
  have hfees := hacc.feeSummary_eq hpool
  obtain ⟨houts, hrange⟩ := hacc.getOutsMoneyAmount_eq hamounts
  have hcoins : (recordOf env bc.db bl (bc.getDifficultyForNextBlock env).1 net s).coins =
      min moneySupply (topCoins bc.db + net) := coinsAfter_eq htop
  have hle : netEmission (recordOf env bc.db bl (bc.getDifficultyForNextBlock env).1 net s) ≤
      net := by
    change (bl.minerTx.outputSum : ℤ) - feeSum s.txs ≤ net
    rw [hnet, houts, hfees]
    unfold subU64 u64
    omega
  rw [hcoins]
  exact ⟨by omega, by omega, by omega⟩

structure CoinSteps (chain : List StoredBlock) : Prop where
  steps : chain.IsChain CoinStep
  capped : ∀ r ∈ chain, r.coins ≤ moneySupply

theorem CoinSteps.of_concat {c : List StoredBlock} (h : CoinSteps (c ++ [r])) : CoinSteps c :=
  ⟨(List.isChain_append.mp h.steps).1, fun r' hr' => h.capped r' (List.mem_append_left _ hr')⟩

theorem CoinSteps.topCoins {db : BlockchainDb} (h : CoinSteps db.chain) :
    topCoins db ≤ moneySupply := by
  unfold Blockchain.topCoins
  cases hlast : db.chain.getLast? with
  | none => exact Nat.zero_le _
  | some r => exact h.capped r (List.mem_of_getLast? hlast)

theorem CoinSteps.concat (h : CoinSteps bc.db.chain) (hacc : Accepted env now bc bl id s record)
    (hpool : bc.txPool.FeesRecorded) (hamounts : ∀ o ∈ bl.minerTx.vout, o.amount < 2 ^ 64) :
    CoinSteps (bc.db.chain ++ [record]) := by
  obtain ⟨hmono, hcapped, hcovers⟩ := hacc.coinStep hpool hamounts h.topCoins
  refine ⟨List.isChain_append.mpr ⟨h.steps, .singleton _, ?_⟩, ?_⟩
  · intro r hr r' hr'
    obtain rfl : record = r' := by simpa using hr'
    have htop : Blockchain.topCoins bc.db = r.coins := by
      rw [Blockchain.topCoins, Option.mem_def.mp hr]
      rfl
    rw [htop] at hmono hcovers
    exact ⟨hmono, hcapped, hcovers⟩
  · exact forall_mem_concat.mpr ⟨h.capped, hcapped⟩

/-! ### What the granted blocks claim together -/

section

variable (hsteps : (r :: rest).IsChain CoinStep)
include hsteps

theorem premineClaims_eq_zero (hr : premineThreshold ≤ r.coins) :
    premineClaims r.coins rest = 0 := by
  induction rest generalizing r with
  | nil => rfl
  | cons r' rest ih =>
    obtain ⟨hstep, hsteps'⟩ := List.isChain_cons_cons.mp hsteps
    rw [premineClaims, if_neg (fun h => absurd h.2 (not_lt.mpr hr)), zero_add]
    exact ih hsteps' (hr.trans hstep.mono)

theorem claimWithin_of_threshold (hr : premineThreshold ≤ r.coins) :
    (r :: rest).IsChain (ClaimWithin bound) := by
  induction rest generalizing r with
  | nil => exact .singleton _
  | cons r' rest ih =>
    obtain ⟨hstep, hsteps'⟩ := List.isChain_cons_cons.mp hsteps
    refine List.isChain_cons_cons.mpr ⟨fun h => ?_, ih hsteps' (hr.trans hstep.mono)⟩
    exact absurd h.2 (not_lt.mpr hr)

theorem premineClaims_le (hwithin : (r :: rest).IsChain (ClaimWithin bound))
    (hgrants : GrantsPremine r.coins) : premineClaims r.coins rest ≤ max 0 (bound - r.coins) := by
  induction rest generalizing r with
  | nil => exact le_max_left _ _
  | cons r' rest ih =>
    obtain ⟨hstep, hsteps'⟩ := List.isChain_cons_cons.mp hsteps
    obtain ⟨hclaim, hwithin'⟩ := List.isChain_cons_cons.mp hwithin
    have hfirst := hclaim hgrants
    rw [premineClaims, if_pos hgrants]
    by_cases hlt : r'.coins < premineThreshold
    · have hrest := ih hsteps' hwithin' ⟨hgrants.1.trans_le hstep.mono, hlt⟩
      have hcovers := hstep.covers (hlt.trans (by decide))
      omega
    · -- the last block that was granted the premine
      rw [premineClaims_eq_zero hsteps' (not_lt.mp hlt)]
      omega

end

/-! ### Exact totals -/

/-- Short of the supply, the total grows by what was minted. -/
structure ExactStep (r r' : StoredBlock) : Prop where
  nonneg : 0 ≤ netEmission r'
  exact : r'.coins < moneySupply → (r'.coins : ℤ) = r.coins + netEmission r'

theorem Ledger.exactSteps {chain : List StoredBlock} (h : Ledger chain) :
    chain.IsChain ExactStep := by
  refine List.isChain_iff_getElem.mpr fun n hn => ?_
  have hnonneg := h.nonneg _ (List.getElem_mem hn)
  refine ⟨hnonneg, fun hlt => ?_⟩
  have h1 := h.coins n _ (List.getElem?_eq_getElem (by omega))
  have h2 := h.coins (n + 1) _ (List.getElem?_eq_getElem hn)
  rw [List.take_succ_eq_append_getElem hn, minted_concat] at h2
  omega

theorem premineClaims_nonneg (hexact : (r :: rest).IsChain ExactStep) :
    0 ≤ premineClaims r.coins rest := by
  induction rest generalizing r with
  | nil => exact le_rfl
  | cons r' rest ih =>
    obtain ⟨hstep, hexact'⟩ := List.isChain_cons_cons.mp hexact
    have hnonneg := hstep.nonneg
    have hrest := ih hexact'
    rw [premineClaims]
    split <;> omega

/-- With exact totals the bound on the sum is a bound on every granted block. -/
theorem claimWithin_of_premineClaims_le (hsteps : (r :: rest).IsChain CoinStep)
    (hexact : (r :: rest).IsChain ExactStep) (hpos : 0 < r.coins)
    (hle : premineClaims r.coins rest ≤ bound - r.coins) :
    (r :: rest).IsChain (ClaimWithin bound) := by
  induction rest generalizing r with
  | nil => exact .singleton _
  | cons r' rest ih =>
    rcases Nat.lt_or_ge r.coins premineThreshold with hlt | hge
    · obtain ⟨hstep, hsteps'⟩ := List.isChain_cons_cons.mp hsteps
      obtain ⟨hexactStep, hexact'⟩ := List.isChain_cons_cons.mp hexact
      have hrest := premineClaims_nonneg hexact'
      rw [premineClaims, if_pos ⟨hpos, hlt⟩] at hle
      refine List.isChain_cons_cons.mpr ⟨fun _ => by omega, ?_⟩
      rcases Nat.lt_or_ge r'.coins moneySupply with hlt' | hge'
      · have htotal := hexactStep.exact hlt'
        exact ih hsteps' hexact' (hpos.trans_le hstep.mono) (by omega)
      · exact claimWithin_of_threshold hsteps' (le_trans (by decide) hge')
    · exact claimWithin_of_threshold hsteps hge

/-! ### Runs -/

/-- The amounts of the miner transaction are 64-bit values. -/
def AmountsFit (_ : Blockchain) (bl : Block) (_ : TxLoop) : Prop :=
  ∀ o ∈ bl.minerTx.vout, o.amount < 2 ^ 64

theorem MintRun.coinSteps (hsteps : CoinSteps bc₀.db.chain) (hpool : bc₀.txPool.FeesRecorded)
    (hrun : MintRun env AmountsFit bc₀ bc) : CoinSteps bc.db.chain := by
  refine (hrun.chain_induction (fun c r h => h.of_concat) ?_ hsteps hpool).1
  intro now bc bl s record hsteps hpool hacc hok
  exact hsteps.concat hacc hpool hok

theorem MintRun.amountsFit (hrun : MintRun env MintOk bc₀ bc) : MintRun env AmountsFit bc₀ bc := by
  induction hrun with
  | refl => exact .refl
  | other _ hchain hpool ih => exact .other ih hchain hpool
  | handle now _ hok ih =>
    exact .handle now ih fun s record hacc => (hok s record hacc).1.amounts
  | pop now _ hpop ih => exact .pop now ih hpop

/-- **The premine is claimed once, if no block claims past it.** On a chain
that starts with a genesis block of net emission below the threshold: as long
as every block that is granted the premine leaves the total within one premine
of the genesis block, all of them together claim at most one premine. When the
fees and sizes of the accepted blocks are in range, the converse holds too. -/
theorem premine_claimed_once_iff (hstart : bc₀.db.chain = [genesis])
    (hgenesis : (genesis.coins : ℤ) = netEmission genesis) (hpos : 0 < netEmission genesis)
    (hlt : netEmission genesis < premineThreshold) (hpool : bc₀.txPool.FeesRecorded)
    (hrun : MintRun env AmountsFit bc₀ bc) (hchain : bc.db.chain = genesis :: rest) :
    ((genesis :: rest).IsChain (ClaimWithin (netEmission genesis + premineReward)) →
      premineClaims genesis.coins rest ≤ premineReward) ∧
    (MintRun env MintOk bc₀ bc →
      (premineClaims genesis.coins rest ≤ premineReward ↔
        (genesis :: rest).IsChain (ClaimWithin (netEmission genesis + premineReward)))) := by
  have hcapped : genesis.coins ≤ moneySupply := by
    simp only [premineThreshold, moneySupply] at *
    omega
  have hsteps := hrun.coinSteps (by rw [hstart]; exact ⟨.singleton _, by simpa using hcapped⟩) hpool
  rw [hchain] at hsteps
  have hgrants : GrantsPremine genesis.coins := ⟨by omega, by omega⟩
  have hsuff : (genesis :: rest).IsChain (ClaimWithin (netEmission genesis + premineReward)) →
      premineClaims genesis.coins rest ≤ premineReward := by
    intro hwithin
    have := premineClaims_le hsteps.steps hwithin hgrants
    omega
  refine ⟨hsuff, fun hexactRun => ⟨fun hle => ?_, hsuff⟩⟩
  have hledger₀ : Ledger bc₀.db.chain := by
    rw [hstart]
    refine Ledger.nil.concat hpos.le ?_
    simp only [List.nil_append, minted, List.map_cons, List.map_nil, List.sum_singleton]
    omega
  have hledger := (hexactRun.ledger hledger₀ hpool).1
  rw [hchain] at hledger
  exact claimWithin_of_premineClaims_le hsteps.steps hledger.exactSteps hgrants.1 (by omega)

/-- A genesis block that takes its whole reward, and the claims on top of it. -/
theorem mintingNode_genesis (claims : List Nat)
    (htake : (mintingNode (190635970351 :: claims)).db.chain.take 1 =
      (mintingNode [190635970351]).db.chain) :
    ∃ genesis, (mintingNode [190635970351]).db.chain = [genesis] ∧
      genesis.coins = 190635970351 ∧ netEmission genesis = 190635970351 ∧
      (mintingNode (190635970351 :: claims)).db.chain =
        genesis :: (mintingNode (190635970351 :: claims)).db.chain.tail := by
  obtain ⟨genesis, hgenesis⟩ : ∃ r, (mintingNode [190635970351]).db.chain = [r] :=
    List.length_eq_one_iff.mp (by decide +kernel)
  have hall : ∀ r ∈ (mintingNode [190635970351]).db.chain,
      r.coins = 190635970351 ∧ netEmission r = 190635970351 := by decide +kernel
  obtain ⟨hcoins, hnet⟩ := hall genesis (by simp [hgenesis])
  refine ⟨genesis, hgenesis, hcoins, hnet, ?_⟩
  rw [hgenesis] at htake
  generalize (mintingNode (190635970351 :: claims)).db.chain = chain at htake
  cases chain with
  | nil => cases htake
  | cons r rest =>
    cases htake
    rfl

theorem premine_claimed_once_iff_single : ∃ genesis r,
    (mintingNode [190635970351, 14992222743513202]).db.chain = [genesis, r] ∧
    netEmission r = 14992222743513202 ∧ premineClaims genesis.coins [r] ≤ premineReward := by
  obtain ⟨genesis, hgenesis, hcoins, hnet, hchain⟩ :=
    mintingNode_genesis [14992222743513202] (by decide +kernel)
  obtain ⟨r, hr⟩ : ∃ r, (mintingNode [190635970351, 14992222743513202]).db.chain.tail = [r] :=
    List.length_eq_one_iff.mp (by decide +kernel)
  have hall : ∀ r ∈ (mintingNode [190635970351, 14992222743513202]).db.chain.tail,
      netEmission r = 14992222743513202 := by decide +kernel
  have hclaim := hall r (by simp [hr])
  rw [hr] at hchain
  refine ⟨genesis, r, hchain, hclaim, (premine_claimed_once_iff hgenesis (by rw [hcoins, hnet]; rfl)
    (by rw [hnet]; decide) (by rw [hnet]; decide) ?_
    (mintingNode_mintRun [190635970351] [14992222743513202] (by decide)).amountsFit hchain).1 ?_⟩
  · exact ((mintingNode_mintRun [] [190635970351] (by decide)).ledger Ledger.nil
      TxPool.feesRecorded_empty).2
  · refine List.isChain_cons_cons.mpr ⟨fun _ => ?_, .singleton _⟩
    rw [hclaim, hcoins, hnet]
    decide

theorem mint_checkpoints (bc : Blockchain) (amount : Nat) :
    (bc.mint amount).checkpoints = bc.checkpoints := by
  rcases mainChain_inv .permissive 10000 bc (mintingBlock bc.db.height amount)
    (Env.permissive.blockHash (mintingBlock bc.db.height amount)) with
    ⟨-, -, hsame⟩ | ⟨-, -, s, record, -, hafter⟩
  · exact hsame.checkpoints
  · rw [mint, hafter]
    exact (afterBlock_rest _ _ _ _).2.2.1

/-- A claim of the premine less one, and the premine is granted again. -/
theorem premine_claimed_twice : ∃ genesis rest,
    (mintingNode [190635970351]).db.chain = [genesis] ∧
    netEmission genesis = 190635970351 ∧
    (mintingNode [190635970351]).checkpoints = .empty ∧
    MintRun .permissive MintOk (mintingNode [190635970351])
      (mintingNode [190635970351, 14992222743513201, 14992222743513202]) ∧
    (mintingNode [190635970351, 14992222743513201, 14992222743513202]).db.chain =
      genesis :: rest ∧
    premineClaims genesis.coins rest = 2 * premineReward - 1 := by
  obtain ⟨genesis, hgenesis, hcoins, hnet, hchain⟩ :=
    mintingNode_genesis [14992222743513201, 14992222743513202] (by decide +kernel)
  refine ⟨genesis, _, hgenesis, hnet, mint_checkpoints _ _, mintingNode_mintRun [190635970351]
    [14992222743513201, 14992222743513202] (by decide), hchain, ?_⟩
  rw [hcoins]
  decide +kernel

end Blockchain

end Lethean
