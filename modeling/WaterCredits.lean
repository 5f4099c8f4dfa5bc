import WaterCredits.Foundation.Machine
import WaterCredits.Foundation.FiniteSum
import WaterCredits.Foundation.Books
import WaterCredits.Foundation.Segment
import WaterCredits.Token.Handover
import WaterCredits.Token.Allowance
import WaterCredits.Token.Transfers
import WaterCredits.Oracle.Mint
import WaterCredits.Oracle.Binding
import WaterCredits.Oracle.Pause
import WaterCredits.Oracle.MinStake
import WaterCredits.Oracle.Missed
import WaterCredits.Oracle.Nonces
import WaterCredits.Oracle.Median
import WaterCredits.Governance.Switch
import WaterCredits.Bridge.Returns
import WaterCredits.Bridge.Relayers
import WaterCredits.Bridge.Codec
import WaterCredits.Market.Cancel
import WaterCredits.Market.Transfers
import WaterCredits.Registry.Agreement
import WaterCredits.Pagination
import WaterCredits.Project.Mirror
import WaterCredits.Governance.Counting
import WaterCredits.Governance.Execution
import WaterCredits.Oracle.History
import WaterCredits.Oracle.Deadlines
import WaterCredits.Oracle.Credits
import WaterCredits.Oracle.Earned
import WaterCredits.Token.Roles
import WaterCredits.Protocol.Trading
import WaterCredits.Protocol.Issuance
import WaterCredits.Protocol.Ledger
import WaterCredits.Protocol.Staking
import WaterCredits.Governance.Provenance
import WaterCredits.Protocol.Emergency
import WaterCredits.Oracle.Rounds
import WaterCredits.Evm.Accounts
import WaterCredits.Oracle.Offices
import WaterCredits.Protocol.Offices
import WaterCredits.Foundation.Scan
import WaterCredits.Market.Views
import WaterCredits.Project.Chronicle
import WaterCredits.Governance.Quorum
import WaterCredits.Protocol.Governed
import WaterCredits.Protocol.Supplies
import WaterCredits.Protocol.Refunds
