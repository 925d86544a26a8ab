import EvmCheck.Cache
import EvmCheck.Main
import EvmCheck.Proofs.ControlFlow
import EvmCheck.Proofs.Grammar
import EvmCheck.Proofs.Markers
import EvmCheck.Proofs.Calls
import EvmCheck.Proofs.Sharing
import EvmCheck.Proofs.Eviction
import EvmCheck.Proofs.Listing
import EvmCheck.Proofs.Partition
import EvmCheck.Proofs.Locality
import EvmCheck.Proofs.Append
import EvmCheck.Proofs.Machine.Word
import EvmCheck.Proofs.Variants
import EvmCheck.Proofs.Machine.Bitmap
import EvmCheck.Proofs.Machine.Survey
import EvmCheck.Proofs.Machine.Listing
import EvmCheck.Proofs.Printed
import EvmCheck.Proofs.Disassembly
import EvmCheck.Proofs.Growth
import EvmCheck.Proofs.Hexadecimal
import EvmCheck.Proofs.Reports
import EvmCheck.Proofs.Runs
import EvmCheck.Proofs.CommandLine
