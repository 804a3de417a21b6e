import ChipEight.Frame
import ChipEight.Instruction.Code
import ChipEight.Keypad.Bindings
import ChipEight.Machine.Cycle
import ChipEight.Machine.Listing
import ChipEight.Proofs.Footprint
import ChipEight.Session
import ChipEight.Storage
import ChipEight.Proofs.Obstacle
import ChipEight.Proofs.Run
import ChipEight.Proofs.Failure
import ChipEight.Proofs.Calls
import ChipEight.Proofs.Bounds
import ChipEight.Proofs.KeyWait
import ChipEight.Proofs.Checked
import ChipEight.Proofs.Safety
import ChipEight.Proofs.Schedule
import ChipEight.Proofs.HostView
import ChipEight.Proofs.Picture
import ChipEight.Proofs.Beeper
import ChipEight.Proofs.Forms
import ChipEight.Proofs.Diagnosis
import ChipEight.Proofs.Decoding
import ChipEight.Proofs.Writes
import ChipEight.Proofs.Destination
import ChipEight.Proofs.Interleaving
import ChipEight.Proofs.Skipping
import ChipEight.Proofs.Drawing
import ChipEight.Proofs.FreshStart
import ChipEight.Proofs.Numerals
import ChipEight.Proofs.DumpRows
import ChipEight.Proofs.ReadBack
import ChipEight.Proofs.Executions
import ChipEight.Proofs.Overlay
import ChipEight.Proofs.Arithmetic
import ChipEight.Proofs.Blocks
import ChipEight.Proofs.RandomBytes
import ChipEight.Proofs.Signals
import ChipEight.Proofs.Timers
import ChipEight.Proofs.ParityPicture
import ChipEight.Proofs.Placement
import ChipEight.Proofs.SilentReset
import ChipEight.Proofs.HostKeys
import ChipEight.Proofs.DumpLines
