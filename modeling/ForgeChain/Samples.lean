import ForgeChain.ChainManager

/-!
Sample transactions and blocks, mined under the test parameters, and the
primitives on them: the digests are SHA-256's, the signatures are ECDSA's
under Alice's key. `sample` looks the digests up by a fingerprint of the input.
-/
namespace ForgeChain.Samples

/-- `n` bytes, highest first. -/
def big (n x : Nat) : Bytes := (leBytes n x).reverse

def ofNat (x : Nat) : HashBytes := ⟨big 32 x,by simp [big]⟩

def fingerprint (data : Bytes) : Nat := data.foldl (fun sum byte => (sum * 257 + byte.toNat) % 0x1FFFFFFFFFFFFFFF) 7

/-- Fingerprints of inputs and their SHA-256 digests. -/
def digests : List (Nat × Nat) := [
  (0x01e0e2dac8a7515a,0xbb1d7268be00233781d6fb20391046f5983b250b4b9a2dcfa88d199a924c90db),
  (0x13f9416e423db3d1,0x36dbd69e341de87f041caea2a80dba04ae9e99b8aea56b8e78663d535e3dd234),
  (0x0000000000000007,0xe3b0c44298fc1c149afbf4c8996fb92427ae41e4649b934ca495991b7852b855),
  (0x05b45c603ae02819,0x5df6e0e2761359d30a8275058e299fcc0381534545f55cf43e41983f5d4c9456),
  (0x08e294b6185827ae,0x61de07059b426ca631c686a935eba8ce54ebc28b5167a1129f7044d3b2d395e1),
  (0x15a8f314ee395278,0x874ddaef40a310e19288b44865550568afa58a9a0db8912073f46bdf8e130cfb),
  (0x000000000000070c,0xe77b9a9ae9e30b0dbdb6f510a264ef9de781501d7b6b92ae89eb059c5ab743db),
  (0x16ff280f4f0b1ab7,0x88e443a340e2356812f72e04258672e5b287a177b66636e961cbc8d66b1e9b97),
  (0x013e0ed624e17b09,0x621299bc59e711e9fa36c2edb40ed916af20e8e6979ffb8fd3028bc1fff72129),
  (0x1ddafaf32ccb1a6c,0x0fb922949b5fd2f3d352766cdbb2112f328950336241bd35657b557c538d1469),
  (0x107cbf835d8e5374,0xc8520c1019698762a3076af54b29731393be83a485a4f85103c13eceee6928c4),
  (0x19fa6c3e505f9e79,0x72feda295392db4c4d330418809bce1d1760cd153e26572931ccabd8339054b3),
  (0x16dabc21d67c9ca8,0xcca278e5e33a2ccad572d65d7c720abfa5f537697531986f286ce22bc8bf9cc0),
  (0x0993d1d0c0d56049,0x8180a3b29d6e3b4befe9fb1dc53cd72e0c23ebe22ce36b1f94bb276ef73cd896),
  (0x0ca28b45d15a02f0,0x3dd9cc7ff8a4964f0b837270faf8ec1dad4f138f6fea2021af3f62ce809ae48c),
  (0x0b9cbc262b0c397a,0x0d36574ceefe68bee926e03aea93c8e19c56801ea3c619ec384c3b1f8ea6bd9c),
  (0x09c2e1efc0a52513,0x10500c140122b7fdb25419fbdf74f2edb5ef278dd0e68312875c9c05d63fd6e7),
  (0x14cc374ee53c7887,0x0a1711bae8d4403fdc7f69bf5779810913fd43eaa8295e48018f40fd8fd30d2c),
  (0x1aa590f4e401cf44,0x194679a7ef90acf3f4c0ec8aeab102942d12a770db1ecebd40b847a10506885e),
  (0x056955634752e215,0x0a33c6aa84826c8e736c3e0a25e1fee294bba38bf69fb288377ae3712b78b1db),
  (0x1e48c12659ea8218,0x8805fadd010fdbdca403f11f57665f3cfcc31f80b14a560c749723685f3bfecc),
  (0x02eee582d459dee0,0x0cff04985a27a1af478096708109d8c1cb8b56519386d2909f72232092993b0d),
  (0x1ca665a0194e1709,0x3b546a1f264d65a877cd65348eb770af7fea2910a63b2ab71fa9e6305b3998fa),
  (0x17eb0091489b5a35,0x0963325324dbe34818f5a8c0d9273ffe16d5ac48954701363f8063f9d9634c5e),
  (0x12222e2d058b60af,0xa9da6f7c0ae1cd5545a060519dbc7fe487c9ea3fdfcf6813b809574ce8794672),
  (0x1930d4bc8f16fa98,0x6722026cd6bbe7c0f94107d24c00ccf9c4d72044248a96ead787df2f1c51f0ce),
  (0x1da4fe51e0c97f40,0x6720eb3bd281b7d3212458a0ebca0c0d12beea2fb23680f9f83f2af995f0e47b),
  (0x1294161b2a48ca92,0x016882e78cb67510e72cea71095f6e6dd89eff6e24e89f65456730e768a11f25),
  (0x1f1786e924783018,0xcc89777c291d3e75866a0755c780adc592fb17ccbf8652a6a1c710fe741373ee),
  (0x1ec46c8a36439713,0xc6d92a0d7bc3a1800e9f99f8776c59b0a0b54754fa417533b721c8ae0e04420c),
  (0x0645be7f8bfeef59,0x8f73f15f2b746232a63d51f74e979c2fa5206d8445fcb85eda8ee251212e20eb),
  (0x1b4cefbe0a460752,0x02a06c6823707067519ed568a73cb35890941523bee8864f30bb3493184f38f0),
  (0x07508688e44a6950,0x1d2a6ca467d0bf291e9f1cf44d3a621e5d57f662c52a9da577cf671c1093196f),
  (0x1f58acd1a2b7b0ee,0xec1696d77306a496d92e335a673eb31d40ab8b950d86f23d9b1f0fcc7d86cb65),
  (0x137df01bc3bcce83,0xa22b57772f632b69dc6f101e8c4e7eb5e280ef0b3589785e2966813f09f52332),
  (0x12a7ca7b74ae0dfd,0x0dae56c0990347b7cc0f619eb31d6bad76df4d5bb7a4876391bb396aefc3a466),
  (0x05cfa1727ae97ecf,0x65ab06b97ff715dd62bab5a03f5bb8dd19c20f8bc4145973ea72ce324540a9c9),
  (0x11960eaee1b22bc8,0xa632de1e6b31cc65d3289aaada7b3ed551da9578ee23378d7fa587a375e58bc9),
  (0x148e0fb5df47ac9e,0xf9291bbc3491ae7df2029acee3157bd082b099edba16a8053f7ca484b7c41e2e),
  (0x082536dc5a35283e,0x039f5f24e770c5fb1986b9fff0132f385434997912d18d9b298e96620d7d4555),
  (0x174b0d144c65a6a7,0xdc73516607e544eb159e7cbf1e8c5f87bb88823d9c648d2b4fdaac8b65f244a0),
  (0x1f2496afa234bbc1,0x0085200d2121996f1c701735a56f3c275d04ec2b3710868b2b4a3443d6b518d7),
  (0x1685cee9995d9705,0x487c8d4694cedc966bbae14b5eaa129c35123eb5e3b5d6455181ea270ad2d6c9),
  (0x1160358ede702862,0x010b931ffc3ca4b9cbd2272ad2911283fd88d948c35e15a5ba055ba214b9bb03),
  (0x1f4d8ed8d2c3c01e,0x4ba23a2b6df22f82fa4f4d7bd976639875ad6a094db6053a7e5bdadf2e8fe54f),
  (0x1b999ec1a7854f42,0x0ff0f3bfff42111c793685a6d20bb7180b3d301ab39d846163925282ff473b9f),
  (0x084c33513c3cd23d,0xd584bf44dcc2ffff81c6273f92a74b0fde44a3c357e63b1965213c3cda3a86d6),
  (0x0d9e34687a95a01f,0x0d51786383d5868d384ef2fbec6cff42c272b69fda1f1ca1464858211fa8303d)]

def aliceKey : Bytes :=
  big 33 0x04540b10b42ae89bebbd643ce567a4b8a29a368343b73204d530556d4f30314cd0 ++
    big 32 0xcc90ece9cad62de0070904a81fd77f7f82aca343eba72bebb30dccd3d067551a

def aliceAddress : Bytes := Primitives.toHex (big 32 0x36dbd69e341de87f041caea2a80dba04ae9e99b8aea56b8e78663d535e3dd234)

/-- The bytes of "bob". -/
def bob : Bytes := [98,111,98]

def reward : Transaction := ⟨kCoinbaseSender,aliceAddress,[],50,[],0,0⟩

def mint : Transaction := ⟨kCoinbaseSender,bob,[],1000,[],0,0⟩

/-- All that a reward gives Alice, for Bob. -/
def pay : Transaction :=
  ⟨aliceAddress,bob,aliceKey,50,
    big 35 0x3045022030dce154b05f57c9bfdbe3963f8f0dab97ff51cd9449296ba84b4d51db189b ++
    big 36 0x81022100c0dc1d3d5fcb735f65fa3338e32869c32a3112db477ce7aa84f82755659ee592,0,0⟩

def nothing : Transaction :=
  ⟨aliceAddress,bob,aliceKey,0,
    big 35 0x30450221009f9244a3ba4bf9a59a94ab72d1514e3cb48486087a6b318dbf47b931db84 ++
    big 36 0xe1790220219637bfc0d6ecbde2c105c4d53ab6600418794f6808f926a02e2c445151d963,0,0⟩

def forged : Transaction := ⟨bob,aliceAddress,[],1,[],0,0⟩

/-- The sender is the address of a public key of one byte. -/
def badKey : Transaction :=
  ⟨Primitives.toHex (big 32 0x88e443a340e2356812f72e04258672e5b287a177b66636e961cbc8d66b1e9b97),bob,[5],1,[],0,0⟩

def sample : Primitives where
  sha256 data := ofNat ((digests.lookup (fingerprint data)).getD 0)
  oct2point publicKey := publicKey = aliceKey
  digestVerify message signature publicKey :=
    [pay,nothing].any fun tx =>
      tx.serializeForSigning = message ∧ tx.signature = signature ∧ tx.senderPublicKey = publicKey
  llroundLog2 _ _ := 0

/-- `kTestParams`. -/
def testParams : ConsensusParams := ⟨4,1,10,20,11,120⟩

/-- The clock long after the samples; the table is walked in its own order. -/
def reading : Reading := ⟨2000,⟨id,fun _ => .rfl⟩⟩

def genesisHash : HashBytes := ofNat 0x874ddaef40a310e19288b44865550568afa58a9a0db8912073f46bdf8e130cfb

def mined (prevHash : HashBytes) (timestamp : UInt64) (nonce : UInt32) (transactions : List Transaction)
    (hash : Nat) : Block :=
  ⟨1,prevHash,.zero,timestamp,4,nonce,0,transactions,ofNat hash⟩

/-- A reward for Alice, which she spends in the same block. -/
def paidA : Block :=
  mined genesisHash 1000 7 [reward,pay]
    0x0fb922949b5fd2f3d352766cdbb2112f328950336241bd35657b557c538d1469

/-- The same two transactions in a block of another branch. -/
def paidB : Block :=
  mined genesisHash 1001 46 [reward,pay]
    0x0d36574ceefe68bee926e03aea93c8e19c56801ea3c619ec384c3b1f8ea6bd9c

def overB : Block :=
  mined paidB.hash 1002 19 []
    0x0a1711bae8d4403fdc7f69bf5779810913fd43eaa8295e48018f40fd8fd30d2c

/-- Alice pays what she never got. -/
def unfunded : Block :=
  mined genesisHash 1003 6 [pay]
    0x0a33c6aa84826c8e736c3e0a25e1fee294bba38bf69fb288377ae3712b78b1db

/-- A coinbase of twenty times the reward. -/
def minted : Block :=
  mined genesisHash 1004 9 [mint]
    0x0cff04985a27a1af478096708109d8c1cb8b56519386d2909f72232092993b0d

/-- No proof of work. -/
def unmined : Block :=
  mined genesisHash 1005 0 []
    0x6722026cd6bbe7c0f94107d24c00ccf9c4d72044248a96ead787df2f1c51f0ce

/-- A reward for Alice and a transaction that nobody signed. -/
def forgedA : Block :=
  mined genesisHash 1006 5 [reward,forged]
    0x016882e78cb67510e72cea71095f6e6dd89eff6e24e89f65456730e768a11f25

/-- Alice, who never got anything, pays nothing. -/
def free : Block :=
  mined genesisHash 1007 28 [nothing]
    0x02a06c6823707067519ed568a73cb35890941523bee8864f30bb3493184f38f0

/-- A transaction whose public key is no point of the curve. -/
def raising : Block :=
  mined genesisHash 1008 12 [badKey]
    0x0dae56c0990347b7cc0f619eb31d6bad76df4d5bb7a4876391bb396aefc3a466

/-- Two empty branches, the second with a third block that nobody signed. -/
def plainA : Block :=
  mined genesisHash 1010 2 []
    0x039f5f24e770c5fb1986b9fff0132f385434997912d18d9b298e96620d7d4555

def plainA2 : Block :=
  mined plainA.hash 1011 15 []
    0x0085200d2121996f1c701735a56f3c275d04ec2b3710868b2b4a3443d6b518d7

def plainB : Block :=
  mined genesisHash 1012 10 []
    0x010b931ffc3ca4b9cbd2272ad2911283fd88d948c35e15a5ba055ba214b9bb03

def plainB2 : Block :=
  mined plainB.hash 1013 42 []
    0x0ff0f3bfff42111c793685a6d20bb7180b3d301ab39d846163925282ff473b9f

def forgedB3 : Block :=
  mined plainB2.hash 1014 4 [forged]
    0x0d51786383d5868d384ef2fbec6cff42c272b69fda1f1ca1464858211fa8303d

/-- A new chain manager of the default capacity without storage. -/
abbrev start : ChainManager := .new sample 1000 testParams none

/-- The state after submitting blocks in order. -/
def submitAll (m : ChainManager) (blocks : List Block) : ChainManager :=
  blocks.foldl (fun m block => (m.submitBlock sample reading block).2) m

end ForgeChain.Samples
